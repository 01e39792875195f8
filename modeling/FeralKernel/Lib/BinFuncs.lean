import FeralKernel.Lib.StringFuncs
import FeralKernel.Library.Cells

/-!
# Writing numbers

`internalItoaBaseChange` and `internalSignedItoa` of `kern/lib/kernel_binfuncs.c`
with the functions that call them.  The digits are written lowest first, and the
buffer is then turned round in place.  What ends up in it is stated with the
digits of the number in the given radix.
-/

namespace FeralKernel

open Verif Verif.Program Verif.Bytes Verif.Cells

variable {σ : Type}

/-! ## The code -/

/-- How `internalItoaBaseChange` encodes a remainder.  `CHAR` is signed. -/
def encodeDigit (rem : BitVec 8) : BitVec 8 :=
  if rem.toInt ≤ 9 ∧ 0 ≤ rem.toInt then rem + ch '0'
  else if rem.toInt < 35 then rem - 10 + ch 'a'
  else rem - 36 + ch 'A'

/-- The loop that writes the digits.  It gives `len`. -/
def writeDigits (encode : BitVec 8 → BitVec 8) (buf : Ptr) (radix val : BitVec 64) :
    Kern σ (BitVec 64) :=
  iterate .hang (fun ((valCopy, len) : BitVec 64 × BitVec 64) =>
    if valCopy ≠ 0 then do
      store8 (buf + len) (encode ((valCopy % radix).setWidth 8))
      pure (.inr (valCopy / radix, len + 1))
    else pure (.inl len)) loopBound (val, 0)

/-- The loop that flips the order of the string. -/
def flipString (buf : Ptr) (len : BitVec 64) : Kern σ Unit :=
  forRange (fun i _ => do
    let tmp ← load8 (buf + BitVec.ofNat 64 i)
    let other ← load8 (buf + (len - BitVec.ofNat 64 i - 1))
    store8 (buf + BitVec.ofNat 64 i) other
    store8 (buf + (len - BitVec.ofNat 64 i - 1)) tmp) (len / 2).toNat 0 ()

def internalItoaBaseChange (val : BitVec 64) (buf : Ptr) (radix : BitVec 8) : Kern σ Unit := do
  if val = 0 then
    store8 buf (ch '0')
    store8 (buf + 1) 0
  else
    let len ← writeDigits encodeDigit buf (radix.setWidth 64) val
    flipString buf len
    store8 (buf + len) 0

def internalItoa (val : BitVec 64) (buf : Ptr) : Kern σ Unit := internalItoaBaseChange val buf 10

/-- The negation wraps, and `base` makes the divisions unsigned. -/
def internalSignedItoa (val : BitVec 64) (buf : Ptr) : Kern σ Unit := do
  if 0 ≤ val.toInt then internalItoa val buf
  else
    let len ← writeDigits (fun rem => rem + ch '0') buf 10 (0 - val)
    store8 (buf + len) (ch '-')
    let len := len + 1
    flipString buf len
    store8 (buf + len) 0

def kiItoa (input : BitVec 64) (result : Ptr) : Kern σ FeralStatus := do
  internalItoa input result
  pure .success

def kiItoaSigned (input : BitVec 64) (result : Ptr) : Kern σ FeralStatus := do
  internalSignedItoa input result
  pure .success

def kiItoaBase (input : BitVec 64) (base : BitVec 8) (result : Ptr) : Kern σ FeralStatus := do
  internalItoaBaseChange input result base
  pure .success

/-! ## Numerals -/

/-- The character of a digit: 0 to 9, then a to z, then A to Z. -/
def digitChar (d : Nat) : BitVec 8 :=
  if d < 10 then BitVec.ofNat 8 (48 + d)
  else if d < 36 then BitVec.ofNat 8 (97 + (d - 10))
  else BitVec.ofNat 8 (65 + (d - 36))

/-- The digits of `n`, highest first and without leading zeros. -/
def numeral (radix n : Nat) : List (BitVec 8) :=
  if n = 0 then [ch '0'] else ((Nat.digits radix n).map digitChar).reverse

def signedNumeral (v : Int) : List (BitVec 8) :=
  if v < 0 then ch '-' :: numeral 10 v.natAbs else numeral 10 v.natAbs

theorem encodeDigit_eq : ∀ d : Fin 35, encodeDigit (BitVec.ofNat 8 d.val) = digitChar d.val := by
  decide

theorem decimalDigit_eq : ∀ d : Fin 10, BitVec.ofNat 8 d.val + ch '0' = digitChar d.val := by
  decide

theorem digitChar_ne_zero : ∀ d : Fin 62, digitChar d.val ≠ 0 := by
  decide

theorem numeral_visible {radix : Nat} (h1 : 1 < radix) (h2 : radix ≤ 62) (n : Nat) :
    ∀ c ∈ numeral radix n, c ≠ 0 := by
  apply numberCells_all (P := fun c => c ≠ 0) h1 (by decide)
  intro d hd
  exact digitChar_ne_zero ⟨d, Nat.lt_of_lt_of_le hd h2⟩

theorem length_numeral_le {radix n k : Nat} (h1 : 1 < radix) (hk : 0 < k) (hn : n < radix ^ k) :
    (numeral radix n).length ≤ k := by
  rw [numeral]
  split
  · exact hk
  · rw [List.length_reverse, List.length_map]
    exact (Nat.digits_length_le_iff h1 n).mpr hn

theorem signedNumeral_visible (v : Int) : ∀ c ∈ signedNumeral v, c ≠ 0 := by
  have hnumeral := numeral_visible (show 1 < 10 by decide) (by decide) v.natAbs
  intro c hc
  rw [signedNumeral] at hc
  split at hc
  · rcases List.mem_cons.mp hc with rfl | hc
    · decide
    · exact hnumeral c hc
  · exact hnumeral c hc

theorem length_signedNumeral_le (v : BitVec 64) : (signedNumeral v.toInt).length ≤ 20 := by
  have habs : v.toInt.natAbs < 10 ^ 19 := by
    have hlt := v.isLt
    rw [BitVec.toInt_eq_toNat_cond]
    split <;> omega
  have hlen := length_numeral_le (show 1 < 10 by decide) (by decide) habs
  rw [signedNumeral]
  split
  · rw [List.length_cons]
    omega
  · omega

/-! ## What the loops write -/

section Loops

variable {buf : Ptr} {s : Machine σ} {m : Mem}

/-- The cells of a buffer hold `l`, memory is otherwise `m`, and nothing but the buffer has
been accessed. -/
def BytesAre (s : Machine σ) (buf : Ptr) (n : Nat) (m : Mem) (l : List (BitVec 8))
    (t : Machine σ) : Prop :=
  l.length ≤ n ∧ t.mem = block m (phys buf) l ∧ SameSide s t ∧ Records (AccessesTo buf n) s t

theorem BytesAre.refl (s : Machine σ) (buf : Ptr) (n : Nat) : BytesAre s buf n s.mem [] s :=
  ⟨Nat.zero_le _, (block_nil _ _).symm, SameSide.refl s, Records.refl _ s⟩

/-- A buffer in one piece of memory is a row of bytes. -/
theorem byteRow {n : Nat} (hspan : Spans buf n) :
    Row (fun k => load8 (buf + k)) (fun k v => store8 (buf + k) v) n (BytesAre s buf n m) where
  get l t i hi h := by
    obtain ⟨hlen, hm, hside, hrec⟩ := h
    rw [returns_load8, hm, phys_add hspan (by omega), block_inside _ _ hi,
      List.getD_eq_getElem _ _ hi]
    exact ⟨rfl, hlen, hm, hside, hrec.note (Or.inl ⟨i, by omega, rfl⟩) rfl⟩
  set l t i v hi h := by
    obtain ⟨hlen, hm, hside, hrec⟩ := h
    rw [returns_store8, hm, phys_add hspan (by omega), write8_block_set _ _ hi]
    exact ⟨by rw [List.length_set]; exact hlen, rfl, hside,
      hrec.note (Or.inr ⟨i, by omega, rfl⟩) rfl⟩
  push l t v hl h := by
    obtain ⟨hlen, hm, hside, hrec⟩ := h
    rw [returns_store8, hm, phys_add hspan hl, write8_block]
    exact ⟨by rw [List.length_append]; exact hl, rfl, hside,
      hrec.note (Or.inr ⟨l.length, hl, rfl⟩) rfl⟩

theorem writeDigits_eq (encode : BitVec 8 → BitVec 8) (buf : Ptr) (radix val : BitVec 64) :
    (writeDigits encode buf radix val : Kern σ _) =
      Cells.writeDigits .hang (fun k v => store8 (buf + k) v)
        (fun rem => encode (rem.setWidth 8)) loopBound radix val := rfl

theorem flipString_eq (buf : Ptr) (len : BitVec 64) :
    (flipString buf len : Kern σ _) =
      Cells.flip (fun k => load8 (buf + k)) (fun k v => store8 (buf + k) v) len := rfl

theorem internalItoaBaseChange_eq (val : BitVec 64) (buf : Ptr) (radix : BitVec 8) :
    (internalItoaBaseChange val buf radix : Kern σ _) =
      writeNumber .hang (fun k => load8 (buf + k)) (fun k v => store8 (buf + k) v) (ch '0') 0
        (fun rem => encodeDigit (rem.setWidth 8)) loopBound (radix.setWidth 64) val := by
  rw [writeNumber, show buf + 0 = buf from BitVec.add_zero buf]
  rfl

theorem toNat_radix (radix : BitVec 8) : (radix.setWidth 64).toNat = radix.toNat := by
  rw [BitVec.toNat_setWidth]
  omega

theorem setWidth_digit (d : Nat) : (BitVec.ofNat 64 d).setWidth 8 = BitVec.ofNat 8 d :=
  BitVec.setWidth_ofNat_of_le (by decide) d

/-- What `internalItoaBaseChange` writes: the remainders as it encodes them. -/
def encodedNumeral (radix n : Nat) : List (BitVec 8) :=
  numberCells (ch '0') (fun d => encodeDigit (BitVec.ofNat 8 d)) radix n

theorem encodedNumeral_eq {radix : Nat} (h1 : 1 < radix) (h2 : radix ≤ 35) (n : Nat) :
    encodedNumeral radix n = numeral radix n := by
  rw [encodedNumeral, numberCells, numeral]
  split
  · rfl
  · congr 1
    apply List.map_congr_left
    intro d hd
    exact encodeDigit_eq ⟨d, Nat.lt_of_lt_of_le (Nat.digits_lt_base h1 hd) h2⟩

section Fills

variable {n : Nat} {Has : List (BitVec 8) → Machine σ → Prop}

/-- In a row of bytes, however it is kept. -/
theorem internalItoaBaseChange_fills {val : BitVec 64} {radix : BitVec 8}
    (h : Row (fun k => load8 (buf + k)) (fun k v => store8 (buf + k) v) n Has)
    (h1 : 1 < radix.toNat) (hroom : (encodedNumeral radix.toNat val.toNat).length < n)
    (hs : Has [] s) :
    Returns (internalItoaBaseChange val buf radix) s fun _ t =>
      Has (encodedNumeral radix.toNat val.toNat ++ [0]) t := by
  have hcells : numberCells (ch '0') (fun d => encodeDigit ((BitVec.ofNat 64 d).setWidth 8))
      (radix.setWidth 64).toNat val.toNat = encodedNumeral radix.toNat val.toNat := by
    simp only [setWidth_digit, toNat_radix, encodedNumeral]
  rw [internalItoaBaseChange_eq, ← hcells]
  exact writeNumber_spec h (by rw [toNat_radix]; exact h1) (by rw [loopBound]; decide)
    (by rw [hcells]; exact hroom) hs

end Fills

theorem internalItoaBaseChange_writes {val : BitVec 64} {radix : BitVec 8} (h1 : 1 < radix.toNat)
    (hspan : Spans buf ((encodedNumeral radix.toNat val.toNat).length + 1)) :
    Returns (internalItoaBaseChange val buf radix) s fun _ t =>
      t.mem = block s.mem (phys buf) (encodedNumeral radix.toNat val.toNat ++ [0]) ∧
      SameSide s t ∧
      Records (AccessesTo buf ((encodedNumeral radix.toNat val.toNat).length + 1)) s t := by
  apply (internalItoaBaseChange_fills (byteRow hspan) h1 (Nat.lt_succ_self _)
    (BytesAre.refl s buf _)).mono
  intro _ t ht
  exact ht.2

theorem internalItoaBaseChange_spec {val : BitVec 64} {radix : BitVec 8} (h1 : 1 < radix.toNat)
    (h2 : radix.toNat ≤ 35)
    (hspan : Spans buf ((numeral radix.toNat val.toNat).length + 1)) :
    Returns (internalItoaBaseChange val buf radix) s fun _ t =>
      t.mem = block s.mem (phys buf) (numeral radix.toNat val.toNat ++ [0]) ∧ SameSide s t ∧
      Records (AccessesTo buf ((numeral radix.toNat val.toNat).length + 1)) s t := by
  rw [← encodedNumeral_eq h1 h2] at hspan ⊢
  exact internalItoaBaseChange_writes h1 hspan

theorem natAbs_toInt_nonneg {val : BitVec 64} (h : 0 ≤ val.toInt) :
    val.toInt.natAbs = val.toNat := by
  rw [BitVec.toInt_eq_toNat_cond] at h ⊢
  split at h <;> split <;> omega

/-- Also for the lowest value, whose negation wraps to itself. -/
theorem natAbs_toInt_neg {val : BitVec 64} (h : val.toInt < 0) :
    val.toInt.natAbs = (0 - val).toNat := by
  have hlt := val.isLt
  rw [BitVec.toNat_sub, show (0 : BitVec 64).toNat = 0 from rfl]
  rw [BitVec.toInt_eq_toNat_cond] at h ⊢
  split at h <;> split <;> omega

/-- A negative numeral, turned round: its digits, lowest first, and then the sign. -/
def signedDigits (n : Nat) : List (BitVec 8) := (Nat.digits 10 n).map digitChar ++ [ch '-']

theorem length_signedDigits (n : Nat) :
    (signedDigits n).length = (Nat.digits 10 n).length + 1 := by
  rw [signedDigits, List.length_append, List.length_map]
  rfl

theorem signedNumeral_neg {v : Int} (h : v < 0) :
    signedNumeral v = (signedDigits v.natAbs).reverse := by
  rw [signedNumeral, if_pos h, numeral, if_neg (by omega), signedDigits, List.reverse_append]
  rfl

section SignedFills

variable {n : Nat} {Has : List (BitVec 8) → Machine σ → Prop}

/-- The branch for negative numbers.  The sign is one more cell behind the digits, so
that the flip puts it in front. -/
theorem signedDigits_filled {val : BitVec 64}
    (h : Row (fun k => load8 (buf + k)) (fun k v => store8 (buf + k) v) n Has)
    (hroom : (signedDigits val.toNat).length < n) (hs : Has [] s) :
    Returns (do
      let len ← writeDigits (fun rem => rem + ch '0') buf 10 val
      store8 (buf + len) (ch '-')
      let len := len + 1
      flipString buf len
      store8 (buf + len) 0) s fun _ t => Has ((signedDigits val.toNat).reverse ++ [0]) t := by
  have hlen := length_signedDigits val.toNat
  have hdigits := length_digits_le (show 1 < 10 by decide) val
  have hchars : (Nat.digits 10 val.toNat).map (fun d => (BitVec.ofNat 64 d).setWidth 8 + ch '0') =
      (Nat.digits 10 val.toNat).map digitChar := by
    apply List.map_congr_left
    intro d hd
    rw [setWidth_digit]
    exact decimalDigit_eq ⟨d, Nat.digits_lt_base (by decide) hd⟩
  have hsucc : BitVec.ofNat 64 (Nat.digits 10 val.toNat).length + 1 =
      BitVec.ofNat 64 (signedDigits val.toNat).length := by
    rw [hlen, BitVec.ofNat_add]
    rfl
  have hcount : (Nat.digits (10 : BitVec 64).toNat val.toNat).length < n := by
    show (Nat.digits 10 val.toNat).length < n
    omega
  rw [writeDigits_eq]
  apply (writeDigits_spec h (by decide) (by rw [loopBound]; decide) (Nat.le_of_lt hcount) hs).bind
  intro len t ht
  obtain ⟨rfl, hhas⟩ := ht
  rw [show (10 : BitVec 64).toNat = 10 from rfl] at hhas ⊢
  rw [hchars] at hhas
  have hminus := h.push _ t (ch '-') (by rw [List.length_map]; exact hcount) hhas
  rw [List.length_map] at hminus
  apply hminus.bind
  intro _ u hu
  dsimp only
  rw [← signedDigits] at hu
  rw [hsucc, flipString_eq]
  exact flipAndClose_spec h (by omega) hroom hu 0

theorem internalSignedItoa_fills {val : BitVec 64}
    (h : Row (fun k => load8 (buf + k)) (fun k v => store8 (buf + k) v) n Has)
    (hroom : (signedNumeral val.toInt).length < n) (hs : Has [] s) :
    Returns (internalSignedItoa val buf) s fun _ t => Has (signedNumeral val.toInt ++ [0]) t := by
  have hten : (10 : BitVec 8).toNat = 10 := rfl
  rw [internalSignedItoa]
  by_cases hpos : 0 ≤ val.toInt
  · have hnumeral : signedNumeral val.toInt = encodedNumeral (10 : BitVec 8).toNat val.toNat := by
      rw [signedNumeral, if_neg (by omega), natAbs_toInt_nonneg hpos, hten,
        encodedNumeral_eq (by decide) (by decide)]
    rw [hnumeral] at hroom ⊢
    rw [if_pos hpos, internalItoa]
    exact internalItoaBaseChange_fills h (by decide) hroom hs
  · have hneg : val.toInt < 0 := by omega
    rw [signedNumeral_neg hneg, natAbs_toInt_neg hneg] at hroom ⊢
    rw [List.length_reverse] at hroom
    rw [if_neg hpos]
    exact signedDigits_filled h hroom hs

end SignedFills

theorem internalSignedItoa_spec {val : BitVec 64}
    (hspan : Spans buf ((signedNumeral val.toInt).length + 1)) :
    Returns (internalSignedItoa val buf) s fun _ t =>
      t.mem = block s.mem (phys buf) (signedNumeral val.toInt ++ [0]) ∧ SameSide s t ∧
      Records (AccessesTo buf ((signedNumeral val.toInt).length + 1)) s t := by
  apply (internalSignedItoa_fills (byteRow hspan) (Nat.lt_succ_self _) (BytesAre.refl s buf _)).mono
  intro _ t ht
  exact ht.2

theorem kiItoaSigned_spec {val : BitVec 64}
    (hspan : Spans buf ((signedNumeral val.toInt).length + 1)) :
    Returns (kiItoaSigned val buf) s fun _ t =>
      t.mem = block s.mem (phys buf) (signedNumeral val.toInt ++ [0]) ∧ SameSide s t ∧
      Records (AccessesTo buf ((signedNumeral val.toInt).length + 1)) s t := by
  rw [kiItoaSigned]
  apply (internalSignedItoa_spec hspan).bind
  intro _ t ht
  rw [returns_pure]
  exact ht

theorem kiItoaBase_spec {val : BitVec 64} {radix : BitVec 8} (h1 : 1 < radix.toNat)
    (h2 : radix.toNat ≤ 35)
    (hspan : Spans buf ((numeral radix.toNat val.toNat).length + 1)) :
    Returns (kiItoaBase val radix buf) s fun _ t =>
      t.mem = block s.mem (phys buf) (numeral radix.toNat val.toNat ++ [0]) ∧ SameSide s t ∧
      Records (AccessesTo buf ((numeral radix.toNat val.toNat).length + 1)) s t := by
  rw [kiItoaBase]
  apply (internalItoaBaseChange_spec h1 h2 hspan).bind
  intro _ t ht
  rw [returns_pure]
  exact ht

theorem kiItoa_spec {val : BitVec 64} (hspan : Spans buf ((numeral 10 val.toNat).length + 1)) :
    Returns (kiItoa val buf) s fun _ t =>
      t.mem = block s.mem (phys buf) (numeral 10 val.toNat ++ [0]) ∧ SameSide s t ∧
      Records (AccessesTo buf ((numeral 10 val.toNat).length + 1)) s t :=
  kiItoaBase_spec (show 1 < (10 : BitVec 8).toNat by decide) (by decide) hspan

end Loops

end FeralKernel
