import FeralKernel.Library.Program
import Mathlib.Data.List.GetD
import Mathlib.Data.Nat.Digits.Lemmas

/-!
# Rows of cells

Programs over a row of cells with 64-bit indices, such as the characters of a buffer.  All
that they need of the loads and stores is in `Row`; how wide a cell is and where the row
lies is for the instance to say.  A number is written as its digits are found, lowest
first, and turned round in place.
-/

namespace Verif
namespace Cells

open Program

variable {σ ε α : Type}

/-- `Has l s` says that the cells in use hold `l`.  A load gives one of them, a store sets
one of them, or adds one as long as there are fewer than `size`. -/
structure Row (load : BitVec 64 → Prog σ ε α) (store : BitVec 64 → α → Prog σ ε Unit)
    (size : Nat) (Has : List α → σ → Prop) : Prop where
  get : ∀ (l : List α) (s : σ) (i : Nat) (hi : i < l.length), Has l s →
    Returns (load (BitVec.ofNat 64 i)) s fun a t => a = l[i] ∧ Has l t
  set : ∀ (l : List α) (s : σ) (i : Nat) (v : α), i < l.length → Has l s →
    Returns (store (BitVec.ofNat 64 i) v) s fun _ t => Has (l.set i v) t
  push : ∀ (l : List α) (s : σ) (v : α), l.length < size → Has l s →
    Returns (store (BitVec.ofNat 64 l.length) v) s fun _ t => Has (l ++ [v]) t

/-! ## Turning a row round -/

/-- Swap the cells at the two ends, then the next ones, up to the middle. -/
def flip (load : BitVec 64 → Prog σ ε α) (store : BitVec 64 → α → Prog σ ε Unit)
    (len : BitVec 64) : Prog σ ε Unit :=
  forRange (fun i _ => do
    let tmp ← load (BitVec.ofNat 64 i)
    let other ← load (len - BitVec.ofNat 64 i - 1)
    store (BitVec.ofNat 64 i) other
    store (len - BitVec.ofNat 64 i - 1) tmp) (len / 2).toNat 0 ()

/-- The cells after `i` swaps. -/
def flipped (l : List α) (i : Nat) : List α :=
  List.ofFn fun k : Fin l.length =>
    if k.val < i ∨ l.length - i ≤ k.val then l[l.length - 1 - k.val] else l[k.val]

theorem length_flipped (l : List α) (i : Nat) : (flipped l i).length = l.length := List.length_ofFn

theorem getElem?_flipped (l : List α) (i : Nat) {k : Nat} (hk : k < l.length) :
    (flipped l i)[k]? = if k < i ∨ l.length - i ≤ k then l[l.length - 1 - k]? else l[k]? := by
  have hback : l.length - 1 - k < l.length := by omega
  rw [flipped, List.getElem?_ofFn, dif_pos hk, List.getElem?_eq_getElem hback,
    List.getElem?_eq_getElem hk]
  split <;> rfl

/-- Two rows of one length are equal if they agree on their cells. -/
theorem ext_cells {l l' : List α} (hlen : l'.length = l.length)
    (h : ∀ k, k < l.length → l'[k]? = l[k]?) : l' = l := by
  apply List.ext_getElem?
  intro k
  rcases Nat.lt_or_ge k l.length with hk | hk
  · exact h k hk
  · rw [List.getElem?_eq_none (by omega), List.getElem?_eq_none hk]

theorem flipped_zero (l : List α) : flipped l 0 = l := by
  refine ext_cells (length_flipped l 0) fun k hk => ?_
  rw [getElem?_flipped l 0 hk, if_neg (by omega)]

theorem flipped_half (l : List α) : flipped l (l.length / 2) = l.reverse := by
  have hlen : (flipped l (l.length / 2)).length = l.reverse.length := by
    rw [length_flipped, List.length_reverse]
  refine ext_cells hlen fun k hk => ?_
  rw [List.length_reverse] at hk
  rw [getElem?_flipped l _ hk, List.getElem?_reverse hk]
  split
  · rfl
  · congr 1
    omega

/-- One more swap. -/
theorem flipped_succ {l : List α} {i : Nat} (hi : i < l.length / 2) {front rear : α}
    (hfront : (flipped l i)[i]? = some front)
    (hrear : (flipped l i)[l.length - 1 - i]? = some rear) :
    ((flipped l i).set i rear).set (l.length - 1 - i) front = flipped l (i + 1) := by
  have hlen := length_flipped l i
  have hlen' := length_flipped l (i + 1)
  rw [getElem?_flipped l i (by omega), if_neg (by omega)] at hfront hrear
  refine ext_cells (by rw [List.length_set, List.length_set, hlen, hlen']) fun k hk => ?_
  rw [hlen'] at hk
  rw [getElem?_flipped l (i + 1) hk, List.getElem?_set, List.getElem?_set, List.length_set, hlen]
  by_cases hr : l.length - 1 - i = k
  · have hback : l.length - 1 - k = i := by omega
    rw [if_pos hr, if_pos (by omega), if_pos (by omega), hback, hfront]
  · rw [if_neg hr]
    by_cases hf : i = k
    · rw [if_pos hf, if_pos (by omega), if_pos (by omega), ← hf, hrear]
    · rw [if_neg hf, getElem?_flipped l i hk]
      by_cases hdone : k < i ∨ l.length - i ≤ k
      · rw [if_pos hdone, if_pos (by omega)]
      · rw [if_neg hdone, if_neg (by omega)]

section Row

variable {load : BitVec 64 → Prog σ ε α} {store : BitVec 64 → α → Prog σ ε Unit}
variable {size : Nat} {Has : List α → σ → Prop} {s : σ}

theorem flip_spec (h : Row load store size Has) {l : List α} (hl : l.length < 2 ^ 64)
    (hs : Has l s) :
    Returns (flip load store (BitVec.ofNat 64 l.length)) s fun _ t => Has l.reverse t := by
  have hnat : (BitVec.ofNat 64 l.length).toNat = l.length := by
    rw [BitVec.toNat_ofNat]
    omega
  have hhalf : (BitVec.ofNat 64 l.length / 2).toNat = l.length / 2 := by
    rw [BitVec.toNat_udiv, hnat]
    rfl
  rw [flip, hhalf, ← flipped_half]
  apply returns_forRange (fun i _ t => Has (flipped l i) t) (l.length / 2)
  · intro i _ t hi ht
    have hback : BitVec.ofNat 64 l.length - BitVec.ofNat 64 i - 1 =
        BitVec.ofNat 64 (l.length - 1 - i) := by
      apply BitVec.eq_of_toNat_eq
      rw [BitVec.toNat_sub, BitVec.toNat_sub, hnat, BitVec.toNat_ofNat, BitVec.toNat_ofNat,
        show (1 : BitVec 64).toNat = 1 from rfl]
      omega
    have hlen := length_flipped l i
    have hfront : i < (flipped l i).length := by omega
    have hrear : l.length - 1 - i < (flipped l i).length := by omega
    rw [hback]
    apply (h.get _ t i hfront ht).bind
    intro front t1 h1
    obtain ⟨rfl, h1⟩ := h1
    apply (h.get _ t1 _ hrear h1).bind
    intro rear t2 h2
    obtain ⟨rfl, h2⟩ := h2
    apply (h.set _ t2 i _ hfront h2).bind
    intro _ t3 h3
    apply (h.set _ t3 _ _ (by rw [List.length_set]; exact hrear) h3).mono
    intro _ t4 h4
    rw [flipped_succ hi (List.getElem?_eq_getElem hfront) (List.getElem?_eq_getElem hrear)] at h4
    exact h4
  · omega
  · rw [flipped_zero]
    exact hs

/-- Turning the row round and closing it. -/
theorem flipAndClose_spec (h : Row load store size Has) {l : List α} (hl : l.length < 2 ^ 64)
    (hsize : l.length < size) (hs : Has l s) (v : α) :
    Returns (do
      flip load store (BitVec.ofNat 64 l.length)
      store (BitVec.ofNat 64 l.length) v) s fun _ t => Has (l.reverse ++ [v]) t := by
  have hlen : l.reverse.length = l.length := List.length_reverse
  apply (flip_spec h hl hs).bind
  intro _ t ht
  rw [← hlen]
  exact h.push _ t v (by rw [hlen]; exact hsize) ht

end Row

/-! ## Writing a number -/

/-- Write the digits of `val`, lowest first, and give their number. -/
def writeDigits (hang : ε) (store : BitVec 64 → α → Prog σ ε Unit) (encode : BitVec 64 → α)
    (fuel : Nat) (radix val : BitVec 64) : Prog σ ε (BitVec 64) :=
  iterate hang (fun ((valCopy, len) : BitVec 64 × BitVec 64) =>
    if valCopy ≠ 0 then do
      store len (encode (valCopy % radix))
      pure (.inr (valCopy / radix, len + 1))
    else pure (.inl len)) fuel (val, 0)

/-- Write a number and close it: zero by itself, every other number by its digits. -/
def writeNumber (hang : ε) (load : BitVec 64 → Prog σ ε α) (store : BitVec 64 → α → Prog σ ε Unit)
    (zero close : α) (encode : BitVec 64 → α) (fuel : Nat) (radix val : BitVec 64) :
    Prog σ ε Unit := do
  if val = 0 then
    store 0 zero
    store 1 close
  else
    let len ← writeDigits hang store encode fuel radix val
    flip load store len
    store len close

/-- The cells of a number: its digits, highest first, or the one for zero. -/
def numberCells (zero : α) (encode : Nat → α) (radix n : Nat) : List α :=
  if n = 0 then [zero] else ((Nat.digits radix n).map encode).reverse

theorem map_numberCells {β : Type} (f : α → β) (zero : α) (encode : Nat → α) (radix n : Nat) :
    (numberCells zero encode radix n).map f =
      numberCells (f zero) (fun d => f (encode d)) radix n := by
  rw [numberCells, numberCells]
  split
  · rfl
  · rw [List.map_reverse, List.map_map]
    rfl

/-- How the digits are encoded does not matter for the length. -/
theorem length_numberCells {β : Type} (zero : α) (zero' : β) (encode : Nat → α)
    (encode' : Nat → β) (radix n : Nat) :
    (numberCells zero encode radix n).length = (numberCells zero' encode' radix n).length := by
  rw [numberCells, numberCells]
  split
  · rfl
  · rw [List.length_reverse, List.length_reverse, List.length_map, List.length_map]

/-- What holds of every encoded digit holds of the cells of a number. -/
theorem numberCells_all {P : α → Prop} {zero : α} {encode : Nat → α} {radix : Nat}
    (h1 : 1 < radix) (hzero : P zero) (hdigit : ∀ d, d < radix → P (encode d)) (n : Nat) :
    ∀ a ∈ numberCells zero encode radix n, P a := by
  intro a ha
  rw [numberCells] at ha
  split at ha
  · rw [List.mem_singleton.mp ha]
    exact hzero
  · rw [List.mem_reverse, List.mem_map] at ha
    obtain ⟨d, hd, rfl⟩ := ha
    exact hdigit d (Nat.digits_lt_base h1 hd)

/-- The number of digits of a 64-bit value. -/
theorem length_digits_le {radix : Nat} (h1 : 1 < radix) (val : BitVec 64) :
    (Nat.digits radix val.toNat).length ≤ 64 := by
  rw [Nat.digits_length_le_iff h1]
  calc val.toNat < 2 ^ 64 := val.isLt
    _ ≤ radix ^ 64 := Nat.pow_le_pow_left h1 64

section Number

variable {load : BitVec 64 → Prog σ ε α} {store : BitVec 64 → α → Prog σ ε Unit}
variable {size : Nat} {Has : List α → σ → Prop} {s : σ} {hang : ε}

theorem writeDigits_spec (h : Row load store size Has) {encode : BitVec 64 → α} {fuel : Nat}
    {radix val : BitVec 64} (h1 : 1 < radix.toNat) (hfuel : 64 < fuel)
    (hsize : (Nat.digits radix.toNat val.toNat).length ≤ size) (hs : Has [] s) :
    Returns (writeDigits hang store encode fuel radix val) s fun len t =>
      len = BitVec.ofNat 64 (Nat.digits radix.toNat val.toNat).length ∧
      Has ((Nat.digits radix.toNat val.toNat).map fun d => encode (BitVec.ofNat 64 d)) t := by
  have hlen := length_digits_le h1 val
  rw [writeDigits]
  -- `written` are the digits so far, and those of `valCopy` are still to come
  refine returns_iterate (fun k b t => ∃ written,
    Nat.digits radix.toNat val.toNat = written ++ Nat.digits radix.toNat b.1.toNat ∧
    b.2 = BitVec.ofNat 64 written.length ∧ k = (Nat.digits radix.toNat b.1.toNat).length ∧
    Has (written.map fun d => encode (BitVec.ofNat 64 d)) t) ?_ fuel
    (Nat.digits radix.toNat val.toNat).length (val, 0) s (by omega) ⟨[], rfl, rfl, rfl, hs⟩
  intro k b t hI
  obtain ⟨valCopy, len⟩ := b
  obtain ⟨written, hdigits, hlen', hk, hhas⟩ := hI
  dsimp only at hdigits hlen' hk ⊢
  by_cases hzero : valCopy = 0
  · have hnone : Nat.digits radix.toNat valCopy.toNat = [] := by
      rw [hzero]
      exact Nat.digits_zero _
    rw [hnone, List.append_nil] at hdigits
    rw [if_neg (fun hne => hne hzero), returns_pure, hdigits]
    exact ⟨hlen', hhas⟩
  · have hpos : 0 < valCopy.toNat := by
      rw [Nat.pos_iff_ne_zero]
      exact fun hz => hzero (BitVec.eq_of_toNat_eq hz)
    have hcons := Nat.digits_def' h1 hpos
    have hrest : (valCopy / radix).toNat = valCopy.toNat / radix.toNat := BitVec.toNat_udiv
    have hrem : valCopy % radix = BitVec.ofNat 64 (valCopy.toNat % radix.toNat) := by
      apply BitVec.eq_of_toNat_eq
      rw [← BitVec.toNat_umod, BitVec.ofNat_toNat, BitVec.setWidth_eq]
    have hroom : (written.map fun d => encode (BitVec.ofNat 64 d)).length < size := by
      rw [hdigits, hcons, List.length_append, List.length_cons] at hsize
      rw [List.length_map]
      omega
    have hpush := h.push _ t (encode (valCopy % radix)) hroom hhas
    rw [List.length_map, ← hlen'] at hpush
    rw [if_pos hzero]
    apply hpush.bind
    intro _ u hu
    rw [returns_pure]
    refine ⟨(Nat.digits radix.toNat (valCopy / radix).toNat).length, ?_,
      written ++ [valCopy.toNat % radix.toNat], ?_, ?_, rfl, ?_⟩
    · rw [hk, hcons, hrest, List.length_cons]
      omega
    · rw [hdigits, hcons, hrest, List.append_assoc]
      rfl
    · rw [hlen', List.length_append, BitVec.ofNat_add]
      rfl
    · rw [hrem] at hu
      rw [List.map_append]
      exact hu

theorem writeNumber_spec (h : Row load store size Has) {zero close : α} {encode : BitVec 64 → α}
    {fuel : Nat} {radix val : BitVec 64} (h1 : 1 < radix.toNat) (hfuel : 64 < fuel)
    (hsize : (numberCells zero (fun d => encode (BitVec.ofNat 64 d)) radix.toNat
      val.toNat).length < size) (hs : Has [] s) :
    Returns (writeNumber hang load store zero close encode fuel radix val) s fun _ t =>
      Has (numberCells zero (fun d => encode (BitVec.ofNat 64 d)) radix.toNat val.toNat ++
        [close]) t := by
  rw [writeNumber]
  by_cases hzero : val = 0
  · have hcells : numberCells zero (fun d => encode (BitVec.ofNat 64 d)) radix.toNat val.toNat =
        [zero] := by
      rw [hzero]
      rfl
    rw [hcells] at hsize ⊢
    rw [if_pos hzero]
    apply (h.push [] s zero (Nat.lt_of_le_of_lt (Nat.zero_le _) hsize) hs).bind
    intro _ t ht
    exact h.push [zero] t close hsize ht
  · have hne : val.toNat ≠ 0 := fun hz => hzero (BitVec.eq_of_toNat_eq hz)
    have hlen := length_digits_le h1 val
    have hmap : ((Nat.digits radix.toNat val.toNat).map
        fun d => encode (BitVec.ofNat 64 d)).length =
          (Nat.digits radix.toNat val.toNat).length := List.length_map _
    rw [numberCells, if_neg hne] at hsize ⊢
    rw [List.length_reverse] at hsize
    rw [if_neg hzero]
    apply (writeDigits_spec h h1 hfuel (by omega) hs).bind
    intro len t ht
    obtain ⟨rfl, hhas⟩ := ht
    rw [← hmap]
    exact flipAndClose_spec h (by omega) hsize hhas close

end Number

end Cells
end Verif
