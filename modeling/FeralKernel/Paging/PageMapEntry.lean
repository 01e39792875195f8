import FeralKernel.Machine
import FeralKernel.Library.Radix

/-!
# Page-table entries and the walk

`kern/inc/arch/x86_64/mm/pageflags.h` and `x86FindPageLevels` of
`kern/arch/x86_64/mm/paging.c`.  A table is 512 entries of eight bytes.  As a
radix tree its tables are physical addresses, its slots the numbers below 512 and
its entries the raw words that have `Present` set.  The translation of a virtual
address is the processor's walk of that tree.
-/

namespace FeralKernel

open Verif.Program Verif.Bytes Verif

/-! ## Entries -/

namespace PageMapEntry

/-- The entry of a table that a level selects. -/
def slot (table : Ptr) (level : BitVec 16) : Ptr := table + 8 * level.setWidth 64

def present (raw : BitVec 64) : Bool := raw.getLsbD 0

def writable (raw : BitVec 64) : Bool := raw.getLsbD 1

def huge (raw : BitVec 64) : Bool := raw.getLsbD 7

/-- `Present = TRUE` writes one bit of the word. -/
def setPresent (raw : BitVec 64) : BitVec 64 := raw ||| 1#64

def setWritable (raw : BitVec 64) : BitVec 64 := raw ||| 2#64

/-- What the three updates of an entry leave in a slot that held `raw`. -/
def linkInto (raw a : BitVec 64) : BitVec 64 := setWritable (setPresent (raw ||| pageAlign a))

/-- What they leave in a clear slot. -/
def linkTo (a : BitVec 64) : BitVec 64 := linkInto 0#64 a

end PageMapEntry

theorem getLsbD_pageAlign (x : BitVec 64) {i : Nat} (hi : i < 64) :
    (pageAlign x).getLsbD i = (x.getLsbD i && decide (12 ≤ i)) := by
  have hmask : (0xFFFFFFFFFFFFF000 : BitVec 64) = BitVec.allOnes 64 <<< 12 := by decide
  rw [pageAlign, hmask, BitVec.getLsbD_and, BitVec.getLsbD_shiftLeft, BitVec.getLsbD_allOnes]
  have hsub : i - 12 < 64 := by omega
  by_cases h : 12 ≤ i
  · have hlt : ¬ i < 12 := by omega
    simp [hi, h, hsub, hlt]
  · have hlt : i < 12 := by omega
    simp [h, hlt]

theorem toNat_pageAlign (x : BitVec 64) : (pageAlign x).toNat = x.toNat / 4096 * 4096 := by
  have hmask : (0xFFFFFFFFFFFFF000 : BitVec 64) = BitVec.allOnes 64 <<< 12 := by decide
  rw [pageAlign, hmask]
  exact toNat_and_highBits x 12

/-- The bits from 12 up to `k`. -/
theorem toNat_and_pageBits (v mask : BitVec 64) (k : Nat)
    (hmask : mask = 0xFFFFFFFFFFFFF000 &&& BitVec.ofNat 64 (2 ^ k - 1)) (hk : k ≤ 64) :
    (v &&& mask).toNat = v.toNat / 4096 * 4096 % 2 ^ k := by
  have hpage := toNat_pageAlign v
  have hpow : 2 ^ k ≤ 2 ^ 64 := Nat.pow_le_pow_right (by decide) hk
  have hones : (BitVec.ofNat 64 (2 ^ k - 1)).toNat = 2 ^ k - 1 := by
    rw [BitVec.toNat_ofNat]
    exact Nat.mod_eq_of_lt (by omega)
  rw [pageAlign] at hpage
  rw [hmask, ← BitVec.and_assoc, BitVec.toNat_and, hpage, hones, Nat.and_two_pow_sub_one_eq_mod]

theorem pageAlign_of_aligned {x : BitVec 64} (h : x.toNat % 4096 = 0) : pageAlign x = x := by
  apply BitVec.eq_of_toNat_eq
  rw [toNat_pageAlign]
  omega

theorem pageAlign_or (x y : BitVec 64) : pageAlign (x ||| y) = pageAlign x ||| pageAlign y :=
  BitVec.and_or_distrib_right

theorem pageAlign_pageAlign (x : BitVec 64) : pageAlign (pageAlign x) = pageAlign x := by
  rw [pageAlign, pageAlign, BitVec.and_assoc, BitVec.and_self]

/-- The bits of an entry that the processor takes for the address of a frame: 12 to 51.
Those above are flags of the entry or are ignored. -/
def frameBits (raw : BitVec 64) : BitVec 64 := raw &&& 0x000FFFFFFFFFF000

theorem toNat_frameBits (x : BitVec 64) :
    (frameBits x).toNat = x.toNat / 4096 * 4096 % 2 ^ 52 :=
  toNat_and_pageBits x _ 52 (by decide) (by decide)

theorem frameBits_or (x y : BitVec 64) : frameBits (x ||| y) = frameBits x ||| frameBits y :=
  BitVec.and_or_distrib_right

theorem frameBits_pageAlign (x : BitVec 64) : frameBits (pageAlign x) = frameBits x := by
  rw [frameBits, pageAlign, BitVec.and_assoc]
  rfl

/-- The two addresses of an entry are the same when none of bits 52 to 63 is set. -/
theorem frameBits_eq_pageAlign_iff (x : BitVec 64) :
    frameBits x = pageAlign x ↔ x.toNat < 2 ^ 52 := by
  rw [← BitVec.toNat_inj, toNat_frameBits, toNat_pageAlign]
  omega

theorem frameBits_of_pageAlign_lt {x : BitVec 64} (h : (pageAlign x).toNat < 2 ^ 52) :
    frameBits x = pageAlign x := by
  rw [frameBits_eq_pageAlign_iff]
  rw [toNat_pageAlign] at h
  omega

namespace PageMapEntry

theorem getLsbD_linkInto (raw a : BitVec 64) {i : Nat} (hi : i < 64) :
    (linkInto raw a).getLsbD i =
      (raw.getLsbD i || a.getLsbD i && decide (12 ≤ i) || decide (i = 0) || decide (i = 1)) := by
  rw [linkInto, setWritable, setPresent, BitVec.getLsbD_or, BitVec.getLsbD_or, BitVec.getLsbD_or,
    getLsbD_pageAlign a hi]
  have h1 : (1#64).getLsbD i = decide (i = 0) := by
    rw [BitVec.getLsbD_one]
    simp
  have h2 : (2#64).getLsbD i = decide (i = 1) := by
    rw [show 2#64 = BitVec.twoPow 64 1 from rfl, BitVec.getLsbD_twoPow]
    simp [eq_comm]
  rw [h1, h2]

@[simp] theorem present_linkInto (raw a : BitVec 64) : present (linkInto raw a) = true := by
  rw [present, getLsbD_linkInto raw a (by omega)]
  simp

@[simp] theorem writable_linkInto (raw a : BitVec 64) : writable (linkInto raw a) = true := by
  rw [writable, getLsbD_linkInto raw a (by omega)]
  simp

@[simp] theorem huge_linkInto (raw a : BitVec 64) : huge (linkInto raw a) = huge raw := by
  rw [huge, getLsbD_linkInto raw a (by omega), huge]
  simp

/-- The new address is ORed into what the slot held. -/
theorem pageAlign_linkInto (raw a : BitVec 64) :
    pageAlign (linkInto raw a) = pageAlign raw ||| pageAlign a := by
  have h1 : pageAlign 1#64 = 0#64 := rfl
  have h2 : pageAlign 2#64 = 0#64 := rfl
  rw [linkInto, setWritable, setPresent, pageAlign_or, pageAlign_or, pageAlign_or, h1, h2,
    BitVec.or_zero, BitVec.or_zero, pageAlign_pageAlign]

theorem frameBits_linkInto (raw a : BitVec 64) :
    frameBits (linkInto raw a) = frameBits raw ||| frameBits a := by
  rw [← frameBits_pageAlign, pageAlign_linkInto, frameBits_or, frameBits_pageAlign,
    frameBits_pageAlign]

@[simp] theorem present_linkTo (a : BitVec 64) : present (linkTo a) = true :=
  present_linkInto 0#64 a

@[simp] theorem writable_linkTo (a : BitVec 64) : writable (linkTo a) = true :=
  writable_linkInto 0#64 a

@[simp] theorem huge_linkTo (a : BitVec 64) : huge (linkTo a) = false := huge_linkInto 0#64 a

@[simp] theorem pageAlign_linkTo (a : BitVec 64) : pageAlign (linkTo a) = pageAlign a := by
  rw [linkTo, pageAlign_linkInto, show pageAlign 0#64 = 0#64 from rfl, BitVec.zero_or]

@[simp] theorem frameBits_linkTo (a : BitVec 64) : frameBits (linkTo a) = frameBits a := by
  rw [linkTo, frameBits_linkInto, show frameBits 0#64 = 0#64 from rfl, BitVec.zero_or]

end PageMapEntry

/-! ## Levels -/

/-- The array `Levels` that `x86FindPageLevels` fills. -/
structure PageLevels where
  level0 : BitVec 16
  level1 : BitVec 16
  level2 : BitVec 16
  level3 : BitVec 16
deriving DecidableEq

def x86FindPageLevels (address : BitVec 64) : FeralStatus × PageLevels :=
  (.success,
    { level0 := ((address >>> 12) &&& 0x1FF).setWidth 16
      level1 := ((address >>> 21) &&& 0x1FF).setWidth 16
      level2 := ((address >>> 30) &&& 0x1FF).setWidth 16
      level3 := ((address >>> 39) &&& 0x1FF).setWidth 16 })

/-- Level `k` of a virtual address as a number. -/
def pageIndex (v : BitVec 64) (k : Nat) : Fin 512 :=
  ⟨v.toNat / 2 ^ (12 + 9 * k) % 512, Nat.mod_lt _ (by decide)⟩

/-- The slots on the way to the last table. -/
def pagePath (v : BitVec 64) : List (Fin 512) := [pageIndex v 3, pageIndex v 2, pageIndex v 1]

theorem toNat_level (v : BitVec 64) (k : Nat) :
    ((((v >>> k) &&& 0x1FF).setWidth 16).setWidth 64).toNat = v.toNat / 2 ^ k % 512 := by
  have hmask : (0x1FF : BitVec 64).toNat = 2 ^ 9 - 1 := rfl
  rw [BitVec.toNat_setWidth, BitVec.toNat_setWidth, BitVec.toNat_and, hmask,
    Nat.and_two_pow_sub_one_eq_mod, BitVec.toNat_ushiftRight, Nat.shiftRight_eq_div_pow]
  omega

/-- The slot of a level, in a table that lies in one piece. -/
theorem phys_slot {table : Ptr} (h : Spans table 4096) (v : BitVec 64) (k : Nat) :
    phys (PageMapEntry.slot table (((v >>> (12 + 9 * k)) &&& 0x1FF).setWidth 16)) =
      phys table + 8 * (pageIndex v k).val := by
  have hlt := (pageIndex v k).isLt
  have hoff : 8 * (((v >>> (12 + 9 * k)) &&& 0x1FF).setWidth 16).setWidth 64 =
      BitVec.ofNat 64 (8 * (pageIndex v k).val) := by
    apply BitVec.eq_of_toNat_eq
    rw [BitVec.toNat_mul, toNat_level, BitVec.toNat_ofNat, show (8 : BitVec 64).toNat = 8 from rfl]
    rfl
  rw [PageMapEntry.slot, hoff, phys_add h (by omega)]

/-- The two addresses agree on bits 12 to 47. -/
def SamePage (v w : BitVec 64) : Prop := v.extractLsb' 12 36 = w.extractLsb' 12 36

instance (v w : BitVec 64) : Decidable (SamePage v w) :=
  inferInstanceAs (Decidable (v.extractLsb' 12 36 = w.extractLsb' 12 36))

theorem samePage_iff (v w : BitVec 64) :
    SamePage v w ↔ pagePath v = pagePath w ∧ pageIndex v 0 = pageIndex w 0 := by
  have hnat : SamePage v w ↔ v.toNat / 4096 % 2 ^ 36 = w.toNat / 4096 % 2 ^ 36 := by
    rw [SamePage, ← BitVec.toNat_inj, BitVec.extractLsb'_toNat, BitVec.extractLsb'_toNat,
      Nat.shiftRight_eq_div_pow, Nat.shiftRight_eq_div_pow]
  rw [hnat]
  simp only [pagePath, pageIndex, List.cons.injEq, Fin.mk.injEq, and_true]
  omega

theorem SamePage.refl (v : BitVec 64) : SamePage v v := rfl

/-! ## The levels tile the address

Nine bits a level, from bit 12 to bit 47. -/

namespace PageLevels

/-- Each of the levels is the number of an entry. -/
def InTable (levels : PageLevels) : Prop :=
  levels.level0.toNat < 512 ∧ levels.level1.toNat < 512 ∧ levels.level2.toNat < 512 ∧
    levels.level3.toNat < 512

/-- The sum of `Levels[i] * 2 ^ (12 + 9 * i)`. -/
def total (levels : PageLevels) : Nat :=
  levels.level0.toNat * 2 ^ 12 + levels.level1.toNat * 2 ^ 21 + levels.level2.toNat * 2 ^ 30 +
    levels.level3.toNat * 2 ^ 39

/-- Levels that select entries are given by their sum. -/
theorem eq_of_total_eq {a b : PageLevels} (ha : a.InTable) (hb : b.InTable)
    (h : a.total = b.total) : a = b := by
  obtain ⟨ha0, ha1, ha2, ha3⟩ := ha
  obtain ⟨hb0, hb1, hb2, hb3⟩ := hb
  rw [total, total] at h
  have h0 : a.level0 = b.level0 := BitVec.eq_of_toNat_eq (by omega)
  have h1 : a.level1 = b.level1 := BitVec.eq_of_toNat_eq (by omega)
  have h2 : a.level2 = b.level2 := BitVec.eq_of_toNat_eq (by omega)
  have h3 : a.level3 = b.level3 := BitVec.eq_of_toNat_eq (by omega)
  cases a
  cases b
  rw [mk.injEq]
  exact ⟨h0, h1, h2, h3⟩

theorem total_lt {levels : PageLevels} (h : levels.InTable) : levels.total < 2 ^ 48 := by
  obtain ⟨h0, h1, h2, h3⟩ := h
  rw [total]
  omega

end PageLevels

theorem toNat_field (v : BitVec 64) (k : Nat) :
    (((v >>> k) &&& 0x1FF).setWidth 16).toNat = v.toNat / 2 ^ k % 512 := by
  have hlevel := toNat_level v k
  have hlt := (((v >>> k) &&& 0x1FF).setWidth 16).isLt
  rw [BitVec.toNat_setWidth] at hlevel
  omega

theorem x86FindPageLevels_inTable (v : BitVec 64) : (x86FindPageLevels v).2.InTable := by
  simp only [PageLevels.InTable, x86FindPageLevels, toNat_field]
  omega

theorem x86FindPageLevels_total (v : BitVec 64) :
    (x86FindPageLevels v).2.total = v.toNat / 2 ^ 12 % 2 ^ 36 * 2 ^ 12 := by
  simp only [PageLevels.total, x86FindPageLevels, toNat_field]
  omega

/-- The address without its bits 0 to 11 and 48 to 63. -/
theorem toNat_middleBits (v : BitVec 64) :
    (v &&& 0x0000FFFFFFFFF000).toNat = v.toNat / 2 ^ 12 % 2 ^ 36 * 2 ^ 12 := by
  rw [toNat_and_pageBits v _ 48 (by decide) (by decide)]
  omega

theorem samePage_iff_getLsbD (v w : BitVec 64) :
    SamePage v w ↔ ∀ i, 12 ≤ i → i < 48 → v.getLsbD i = w.getLsbD i := by
  rw [SamePage, BitVec.eq_of_getLsbD_eq_iff]
  constructor
  · intro h i hlow hhigh
    have hbit := h (i - 12) (by omega)
    rw [BitVec.getLsbD_extractLsb', BitVec.getLsbD_extractLsb'] at hbit
    have hin : i - 12 < 36 := by omega
    have hback : 12 + (i - 12) = i := by omega
    simpa [hin, hback] using hbit
  · intro h i hi
    rw [BitVec.getLsbD_extractLsb', BitVec.getLsbD_extractLsb', h (12 + i) (by omega) (by omega)]

theorem x86FindPageLevels_eq_iff (v w : BitVec 64) :
    (x86FindPageLevels v).2 = (x86FindPageLevels w).2 ↔ SamePage v w := by
  have htotal : SamePage v w ↔ (x86FindPageLevels v).2.total = (x86FindPageLevels w).2.total := by
    rw [SamePage, ← BitVec.toNat_inj, BitVec.extractLsb'_toNat, BitVec.extractLsb'_toNat,
      Nat.shiftRight_eq_div_pow, Nat.shiftRight_eq_div_pow, x86FindPageLevels_total,
      x86FindPageLevels_total]
    omega
  rw [htotal]
  constructor
  · intro h
    rw [h]
  · exact PageLevels.eq_of_total_eq (x86FindPageLevels_inTable v) (x86FindPageLevels_inTable w)

/-- The address that a tuple of levels makes up is taken apart into it again. -/
theorem x86FindPageLevels_of_total {levels : PageLevels} (h : levels.InTable) :
    (x86FindPageLevels (BitVec.ofNat 64 levels.total)).2 = levels := by
  have hlt := PageLevels.total_lt h
  have hmultiple : levels.total % 2 ^ 12 = 0 := by
    rw [PageLevels.total]
    omega
  apply PageLevels.eq_of_total_eq (x86FindPageLevels_inTable _) h
  rw [x86FindPageLevels_total, BitVec.toNat_ofNat]
  omega

/-- The levels are the fields of bits 12 to 47: they lose nothing of them, take nothing
else, and every tuple of entry numbers occurs. -/
theorem x86FindPageLevels_tiles :
    (∀ v : BitVec 64, (x86FindPageLevels v).1 = .success ∧ (x86FindPageLevels v).2.InTable ∧
      (x86FindPageLevels v).2.total = (v &&& 0x0000FFFFFFFFF000).toNat) ∧
    (∀ v w : BitVec 64, (x86FindPageLevels v).2 = (x86FindPageLevels w).2 ↔
      ∀ i, 12 ≤ i → i < 48 → v.getLsbD i = w.getLsbD i) ∧
    ∀ levels : PageLevels, levels.InTable → ∃ v, (x86FindPageLevels v).2 = levels := by
  refine ⟨fun v => ⟨rfl, x86FindPageLevels_inTable v, ?_⟩, fun v w => ?_, fun levels h => ?_⟩
  · rw [x86FindPageLevels_total, toNat_middleBits]
  · rw [x86FindPageLevels_eq_iff, samePage_iff_getLsbD]
  · exact ⟨_, x86FindPageLevels_of_total h⟩

/-! ## The tables as a radix tree -/

/-- The entries of the tables in `m`. -/
def entries (m : Mem) : Radix.Store Nat (Fin 512) (BitVec 64) := fun table i =>
  let raw := read64 m (table + 8 * i.val)
  if PageMapEntry.present raw then some raw else none

/-- The table an entry names. -/
def childTable (raw : BitVec 64) : Nat := (frameBits raw).toNat

/-- The table is where the code looks for it, unless one of bits 52 to 63 is set. -/
theorem childTable_eq {raw : BitVec 64} (h : (pageAlign raw).toNat < 2 ^ 52) :
    childTable raw = (pageAlign raw).toNat := by
  rw [childTable, frameBits_of_pageAlign_lt h]

structure Translation where
  address : BitVec 64
  writable : Bool
deriving DecidableEq

/-- The processor's walk: the frame of the page of `v`, and whether every level
allows writing.  Addresses are bits 12 to 51 of an entry.  An entry of the second or
third level with bit 7 set is a leaf of 1 GiB or 2 MiB. -/
def translate (m : Mem) (root : Nat) (v : BitVec 64) : Option Translation := do
  let e3 ← entries m root (pageIndex v 3)
  let e2 ← entries m (childTable e3) (pageIndex v 2)
  let w2 := PageMapEntry.writable e3 && PageMapEntry.writable e2
  if PageMapEntry.huge e2 then
    pure { address := (e2 &&& 0x000FFFFFC0000000) ||| (v &&& 0x3FFFF000), writable := w2 }
  else
    let e1 ← entries m (childTable e2) (pageIndex v 1)
    let w1 := w2 && PageMapEntry.writable e1
    if PageMapEntry.huge e1 then
      pure { address := (e1 &&& 0x000FFFFFFFE00000) ||| (v &&& 0x1FF000), writable := w1 }
    else
      let e0 ← entries m (childTable e1) (pageIndex v 0)
      pure { address := frameBits e0, writable := w1 && PageMapEntry.writable e0 }

end FeralKernel
