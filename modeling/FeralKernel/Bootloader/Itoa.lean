import FeralKernel.Lib.Numerals

/-!
# Numbers in every radix

`InternalItoaBaseChange` of `bootloader/boot.c` is the kernel's function borrowed for wide
characters.  Both encode a remainder by the same three ranges, and in both the second one
ends one digit early: 35 falls to the upper case letters and becomes the character before
`A`.
-/

namespace FeralKernel

open Verif Verif.Program Verif.Bytes Verif.Cells

variable {σ : Type}

/-! ## The bootloader's copy -/

/-- A wide character literal.  `CHAR16` is an unsigned 16-bit `wchar_t` for EFI. -/
def wideCh (c : Char) : BitVec 16 := BitVec.ofNat 16 c.toNat

namespace Bootloader

def encodeDigit (rem : BitVec 16) : BitVec 16 :=
  if rem.toNat ≤ 9 ∧ 0 ≤ rem.toNat then rem + wideCh '0'
  else if rem.toNat < 35 then rem - 10 + wideCh 'a'
  else rem - 36 + wideCh 'A'

/-- The loop that writes the digits.  It gives `Len`. -/
def writeDigits (buf : Ptr) (radix val : BitVec 64) : Kern σ (BitVec 64) :=
  iterate .hang (fun ((valCopy, len) : BitVec 64 × BitVec 64) =>
    if valCopy ≠ 0 then do
      store16 (buf + 2 * len) (encodeDigit ((valCopy % radix).setWidth 16))
      pure (.inr (valCopy / radix, len + 1))
    else pure (.inl len)) loopBound (val, 0)

/-- The loop that flips the order of the string. -/
def flipString (buf : Ptr) (len : BitVec 64) : Kern σ Unit :=
  forRange (fun i _ => do
    let tmp ← load16 (buf + 2 * BitVec.ofNat 64 i)
    let other ← load16 (buf + 2 * (len - BitVec.ofNat 64 i - 1))
    store16 (buf + 2 * BitVec.ofNat 64 i) other
    store16 (buf + 2 * (len - BitVec.ofNat 64 i - 1)) tmp) (len / 2).toNat 0 ()

def internalItoaBaseChange (val : BitVec 64) (buf : Ptr) (radix : BitVec 8) : Kern σ Unit := do
  if val = 0 then
    store16 buf (wideCh '0')
    store16 (buf + 2) 0
  else
    let len ← writeDigits buf (radix.setWidth 64) val
    flipString buf len
    store16 (buf + 2 * len) 0

/-! ## What it writes -/

section Wide

variable {buf : Ptr} {s : Machine σ} {m : Mem} {n : Nat}

/-- The wide characters from a pointer on. -/
def wideAt (buf : Ptr) (t : Machine σ) (k : Nat) : BitVec 16 :=
  read16 t.mem (phys (buf + 2 * BitVec.ofNat 64 k))

theorem phys_wide (hspan : Spans buf (2 * n)) {k : Nat} (hk : k < n) :
    phys (buf + 2 * BitVec.ofNat 64 k) = phys buf + 2 * k := by
  have htwice : (2 : BitVec 64) * BitVec.ofNat 64 k = BitVec.ofNat 64 (2 * k) := by
    rw [BitVec.ofNat_mul]
    rfl
  rw [htwice, phys_add hspan (by omega)]

/-- The cells of a buffer of `n` wide characters hold `l`. -/
structure WideAre (s : Machine σ) (buf : Ptr) (n : Nat) (l : List (BitVec 16)) (t : Machine σ) :
    Prop where
  fits : l.length ≤ n
  cells : ∀ k, k < l.length → l[k]? = some (wideAt buf t k)
  side : SameSide s t

/-- A store of one cell leaves the others as they are. -/
theorem wideAt_store (hspan : Spans buf (2 * n)) {i k : Nat} (hi : i < n) (hk : k < n)
    (t : Machine σ) (v : BitVec 16) (e : Event) :
    wideAt buf ((t.setMem (write16 t.mem (phys (buf + 2 * BitVec.ofNat 64 i)) v)).note e) k =
      if i = k then v else wideAt buf t k := by
  rw [wideAt, wideAt, Machine.note_mem, Machine.setMem_mem, phys_wide hspan hi, phys_wide hspan hk]
  split
  case isTrue he => rw [he, read16_write16_same]
  case isFalse he => rw [read16_write16_outside (by omega)]

/-- A buffer in one piece of memory is a row of wide characters. -/
theorem wideRow (hspan : Spans buf (2 * n)) :
    Row (fun k => load16 (buf + 2 * k)) (fun k v => store16 (buf + 2 * k) v) n
      (WideAre s buf n) where
  get l t i hi h := by
    have hcell := h.cells i hi
    rw [List.getElem?_eq_getElem hi] at hcell
    rw [returns_load16]
    exact ⟨(Option.some.inj hcell).symm, h.fits, h.cells, h.side⟩
  set l t i v hi h := by
    have hfits := h.fits
    rw [returns_store16]
    refine ⟨by rw [List.length_set]; exact hfits, fun k hk => ?_, h.side⟩
    rw [List.length_set] at hk
    rw [wideAt_store hspan (by omega) (by omega), List.getElem?_set]
    by_cases he : i = k
    · rw [if_pos he, if_pos hi, if_pos he]
    · rw [if_neg he, if_neg he, h.cells k hk]
  push l t v hl h := by
    rw [returns_store16]
    refine ⟨by rw [List.length_append]; exact hl, fun k hk => ?_, h.side⟩
    rw [List.length_append, List.length_singleton] at hk
    rw [wideAt_store hspan hl (by omega)]
    by_cases he : l.length = k
    · rw [if_pos he, ← he, List.getElem?_append_right (Nat.le_refl _), Nat.sub_self]
      rfl
    · rw [if_neg he, List.getElem?_append_left (by omega), h.cells k (by omega)]

theorem internalItoaBaseChange_eq_writeNumber (val : BitVec 64) (buf : Ptr) (radix : BitVec 8) :
    (internalItoaBaseChange val buf radix : Kern σ _) =
      writeNumber .hang (fun k => load16 (buf + 2 * k)) (fun k v => store16 (buf + 2 * k) v)
        (wideCh '0') 0 (fun rem => encodeDigit (rem.setWidth 16)) loopBound (radix.setWidth 64)
        val := by
  rw [writeNumber, show buf + 2 * 0 = buf by simp, show buf + 2 * 1 = buf + 2 by simp]
  rfl

/-- The remainders as the bootloader encodes them. -/
def encodedNumeral (radix n : Nat) : List (BitVec 16) :=
  numberCells (wideCh '0') (fun d => encodeDigit (BitVec.ofNat 16 d)) radix n

theorem encodeDigit_ne_zero : ∀ d : Fin 62, encodeDigit (BitVec.ofNat 16 d.val) ≠ 0 := by
  decide

theorem encodedNumeral_visible {radix : Nat} (h1 : 1 < radix) (h2 : radix ≤ 62) (n : Nat) :
    ∀ c ∈ encodedNumeral radix n, c ≠ 0 := by
  apply numberCells_all (P := fun c => c ≠ 0) h1 (by decide)
  intro d hd
  exact encodeDigit_ne_zero ⟨d, Nat.lt_of_lt_of_le hd h2⟩

theorem internalItoaBaseChange_terminates {val : BitVec 64} {radix : BitVec 8}
    (h1 : 1 < radix.toNat) (h2 : radix.toNat ≤ 62)
    (hspan : Spans buf (2 * ((encodedNumeral radix.toNat val.toNat).length + 1))) :
    Returns (internalItoaBaseChange val buf radix) s fun _ t =>
      Terminated (wideAt buf t) (encodedNumeral radix.toNat val.toNat) := by
  have hdigit : ∀ d, (BitVec.ofNat 64 d).setWidth 16 = BitVec.ofNat 16 d :=
    fun d => BitVec.setWidth_ofNat_of_le (by decide) d
  have hcells : numberCells (wideCh '0') (fun d => encodeDigit ((BitVec.ofNat 64 d).setWidth 16))
      (radix.setWidth 64).toNat val.toNat = encodedNumeral radix.toNat val.toNat := by
    simp only [hdigit, toNat_radix, encodedNumeral]
  rw [internalItoaBaseChange_eq_writeNumber]
  refine (writeNumber_spec (wideRow hspan) (by rw [toNat_radix]; exact h1) (by rw [loopBound]; decide)
    (by rw [hcells]; omega)
    ⟨Nat.zero_le _, fun k hk => absurd hk (Nat.not_lt_zero k), SameSide.refl s⟩).mono ?_
  intro _ t ht
  rw [hcells] at ht
  have hlen : (encodedNumeral radix.toNat val.toNat ++ [(0 : BitVec 16)]).length =
      (encodedNumeral radix.toNat val.toNat).length + 1 := by simp
  refine ⟨fun k hk => ?_, ?_, encodedNumeral_visible h1 h2 _⟩
  · rw [← ht.cells k (by omega), List.getElem?_append_left hk]
  · have hlast := ht.cells (encodedNumeral radix.toNat val.toNat).length (by omega)
    rw [List.getElem?_append_right (Nat.le_refl _), Nat.sub_self] at hlast
    exact (Option.some.inj hlast).symm

end Wide

/-! ## What it leaves alone -/

/-- The cells, with the memory around the buffer as it was. -/
structure WideIn (s : Machine σ) (buf : Ptr) (n : Nat) (l : List (BitVec 16)) (t : Machine σ) :
    Prop where
  wide : WideAre s buf n l t
  others : ∀ a, a < phys buf ∨ phys buf + 2 * n ≤ a → t.mem a = s.mem a

section Keeps

variable {buf : Ptr} {s t : Machine σ} {n : Nat}

theorem others_store (hspan : Spans buf (2 * n)) {i : Nat} (hi : i < n)
    (h : ∀ a, a < phys buf ∨ phys buf + 2 * n ≤ a → t.mem a = s.mem a) (v : BitVec 16) :
    Returns (store16 (buf + 2 * BitVec.ofNat 64 i) v) t fun _ u =>
      ∀ a, a < phys buf ∨ phys buf + 2 * n ≤ a → u.mem a = s.mem a := by
  rw [returns_store16]
  intro a ha
  show write16 t.mem _ v a = _
  rw [phys_wide hspan hi, write16, writeLE_outside (by omega), h a ha]

theorem wideRow_in (hspan : Spans buf (2 * n)) :
    Row (fun k => load16 (buf + 2 * k)) (fun k v => store16 (buf + 2 * k) v) n (WideIn s buf n) where
  get l t i hi h := by
    have hload : Returns (load16 (buf + 2 * BitVec.ofNat 64 i)) t fun _ u => u.mem = t.mem :=
      returns_load16.mpr rfl
    refine (((wideRow hspan).get l t i hi h.wide).and hload).mono ?_
    rintro _ u ⟨⟨hcell, hwide⟩, hmem⟩
    exact ⟨hcell, hwide, fun a ha => by rw [hmem, h.others a ha]⟩
  set l t i v hi h := by
    have hfits := h.wide.fits
    refine (((wideRow hspan).set l t i v hi h.wide).and
      (others_store hspan (by omega) h.others v)).mono ?_
    rintro _ u ⟨hwide, hothers⟩
    exact ⟨hwide, hothers⟩
  push l t v hl h := by
    refine (((wideRow hspan).push l t v hl h.wide).and (others_store hspan hl h.others v)).mono ?_
    rintro _ u ⟨hwide, hothers⟩
    exact ⟨hwide, hothers⟩

/-- In a buffer with room for the number only the buffer is written. -/
theorem internalItoaBaseChange_others {val : BitVec 64} {radix : BitVec 8}
    (h1 : 1 < radix.toNat) (hspan : Spans buf (2 * n))
    (hroom : (numeral radix.toNat val.toNat).length < n) :
    Returns (internalItoaBaseChange val buf radix) s fun _ t => t.statics = s.statics ∧
      ∀ a, a < phys buf ∨ phys buf + 2 * n ≤ a → t.mem a = s.mem a := by
  have hlen : ∀ encode : Nat → BitVec 16,
      (numberCells (wideCh '0') encode radix.toNat val.toNat).length =
        (numeral radix.toNat val.toNat).length := fun _ => length_numberCells _ _ _ _ _ _
  rw [internalItoaBaseChange_eq_writeNumber]
  refine (writeNumber_spec (wideRow_in hspan) (by rw [toNat_radix]; exact h1)
    (by rw [loopBound]; decide) (by rw [toNat_radix, hlen]; exact hroom)
    ⟨⟨Nat.zero_le _, fun k hk => absurd hk (Nat.not_lt_zero k), SameSide.refl s⟩,
      fun _ _ => rfl⟩).mono ?_
  intro _ t ht
  exact ⟨ht.wide.side.1, ht.others⟩

end Keeps

theorem digitValue_encodeDigit : ∀ d : Fin 62,
    digitValue (encodeDigit (BitVec.ofNat 16 d.val)).toNat =
      if d.val = 35 then none else some d.val := by
  decide

theorem writesNumeral_internalItoaBaseChange {val : BitVec 64} {radix : BitVec 8} {buf : Ptr}
    {s : Machine σ} (h1 : 1 < radix.toNat) (h2 : radix.toNat ≤ 62)
    (hspan : Spans buf (2 * ((numeral radix.toNat val.toNat).length + 1))) :
    WritesNumeral (internalItoaBaseChange val buf radix) s (wideAt buf) radix.toNat val.toNat ↔
      35 ∉ Nat.digits radix.toNat val.toNat := by
  have hlen : (encodedNumeral radix.toNat val.toNat).length =
      (numeral radix.toNat val.toNat).length := length_numberCells _ _ _ _ _ _
  rw [← hlen] at hspan
  exact writesNumeral_iff h1 h2 (by decide) digitValue_encodeDigit
    (internalItoaBaseChange_terminates h1 h2 hspan)

end Bootloader

/-! ## Both copies -/

/-- Kernel and bootloader write a numeral of the value unless one of its digits is 35. -/
theorem internalItoaBaseChange_numeral_iff {val : BitVec 64} {radix : BitVec 8} {buf wide : Ptr}
    {s : Machine σ} (h1 : 1 < radix.toNat) (h2 : radix.toNat ≤ 62)
    (hspan : Spans buf ((numeral radix.toNat val.toNat).length + 1))
    (hwide : Spans wide (2 * ((numeral radix.toNat val.toNat).length + 1))) :
    (WritesNumeral (internalItoaBaseChange val buf radix) s (byteAt buf) radix.toNat val.toNat ↔
      35 ∉ Nat.digits radix.toNat val.toNat) ∧
    (WritesNumeral (Bootloader.internalItoaBaseChange val wide radix) s (Bootloader.wideAt wide)
        radix.toNat val.toNat ↔
      35 ∉ Nat.digits radix.toNat val.toNat) :=
  ⟨writesNumeral_internalItoaBaseChange h1 h2 hspan,
    Bootloader.writesNumeral_internalItoaBaseChange h1 h2 hwide⟩

/-- Two buffers with room for two digits. -/
theorem spans_numeral (val : BitVec 64) (radix : BitVec 8) (h1 : 1 < radix.toNat)
    (hval : val.toNat < radix.toNat ^ 2) :
    Spans 0x1000 ((numeral radix.toNat val.toNat).length + 1) ∧
      Spans 0x2000 (2 * ((numeral radix.toNat val.toNat).length + 1)) := by
  have hlen := length_numeral_le h1 (by decide) hval
  have hroom : Spans 0x1000 3 ∧ Spans 0x2000 6 := by
    unfold Spans
    decide
  exact ⟨hroom.1.mono (by omega), hroom.2.mono (by omega)⟩

/-- The largest radix, with a value of two digits 61. -/
theorem highest_digits_numeral :
    WritesNumeral (internalItoaBaseChange 3843 0x1000 62) (Machine.mk (fun _ => 0) [] ())
        (byteAt 0x1000) 62 3843 ∧
      WritesNumeral (Bootloader.internalItoaBaseChange 3843 0x2000 62)
        (Machine.mk (fun _ => 0) [] ()) (Bootloader.wideAt 0x2000) 62 3843 := by
  have hspans := spans_numeral 3843 62 (by decide) (by decide)
  have hdigits : 35 ∉ Nat.digits 62 3843 := by norm_num
  have hiff := internalItoaBaseChange_numeral_iff (s := Machine.mk (fun _ => 0) [] ())
    (by decide) (by decide) hspans.1 hspans.2
  exact ⟨hiff.1.mpr hdigits, hiff.2.mpr hdigits⟩

/-- 35 in radix 36 is one digit, which both write as `@`. -/
theorem digit_35_no_numeral :
    ¬ WritesNumeral (internalItoaBaseChange 35 0x1000 36) (Machine.mk (fun _ => 0) [] ())
        (byteAt 0x1000) 36 35 ∧
      ¬ WritesNumeral (Bootloader.internalItoaBaseChange 35 0x2000 36)
        (Machine.mk (fun _ => 0) [] ()) (Bootloader.wideAt 0x2000) 36 35 := by
  have hspans := spans_numeral 35 36 (by decide) (by decide)
  have hdigits : 35 ∈ Nat.digits 36 35 := by norm_num
  refine ⟨fun h => ?_, fun h => ?_⟩
  · exact (writesNumeral_internalItoaBaseChange (by decide) (by decide) hspans.1).mp h hdigits
  · exact (Bootloader.writesNumeral_internalItoaBaseChange (by decide) (by decide)
      hspans.2).mp h hdigits

end FeralKernel
