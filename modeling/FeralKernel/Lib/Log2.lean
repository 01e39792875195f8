import FeralKernel.Lib.MemFuncs

/-!
# Logarithms by the base 2

`KiLog2UInt` and `KiLog2Int` of `kern/lib/kernel_binfuncs.c`.  The first counts how often
its input can be halved.  The second takes the logarithm of the input and of its negation
and picks one of the two results, but it has both stored in the same place.
-/

namespace FeralKernel

open Verif.Program

variable {σ : Type}

/-! ## The code -/

/-- The status and what is written to `*Result`. -/
def kiLog2UInt (input : BitVec 64) : Kern σ (FeralStatus × BitVec 64) := do
  let res ← iterate .hang (fun ((copy, res) : BitVec 64 × BitVec 64) =>
    if 2 ≤ copy then pure (.inr (copy / 2, res + 1))
    else pure (.inl res)) loopBound (input, 0)
  pure (.success, res)

/-- The status and what is written to `*Result`.  Both calls are given the address of
`ResultOne`, so the second result replaces the first and `ResultTwo` keeps its zero. -/
def kiLog2Int (input : BitVec 64) : Kern σ (FeralStatus × BitVec 64) := do
  let resultTwo : BitVec 64 := 0
  let (_, _) ← kiLog2UInt input
  let (_, resultOne) ← kiLog2UInt (-input)
  let result := (if input.toInt ≤ 0 then 1 else 0) * resultTwo +
    (if 0 < input.toInt then 1 else 0) * resultOne
  pure (.success, result)

/-! ## What they store -/

/-- `r` is the exponent of the highest power of two up to `n`. -/
def IsLog2 (n : Nat) (r : Int) : Prop := ∃ k : Nat, r = k ∧ 2 ^ k ≤ n ∧ n < 2 ^ (k + 1)

theorem isLog2_iff {n k : Nat} (hn : n ≠ 0) : IsLog2 n k ↔ Nat.log2 n = k := by
  rw [Nat.log2_eq_iff hn]
  constructor
  · rintro ⟨j, hj, hbracket⟩
    rw [Int.ofNat_inj.mp hj]
    exact hbracket
  · intro hbracket
    exact ⟨k, rfl, hbracket⟩

/-- The call stores the logarithm of `n`. -/
def StoresLog2 (x : Kern σ (FeralStatus × BitVec 64)) (s : Machine σ) (n : Nat) : Prop :=
  Returns x s fun r _ => r.1 = .success ∧ IsLog2 n r.2.toInt

section Log2

variable {s : Machine σ} {input : BitVec 64}

theorem log2_halved {n : Nat} (h : 2 ≤ n) : Nat.log2 n = Nat.log2 (n / 2) + 1 := by
  rw [Nat.log2_def, if_pos h]

theorem log2_small {n : Nat} (h : ¬ 2 ≤ n) : Nat.log2 n = 0 := by
  rw [Nat.log2_def, if_neg h]

theorem log2_lt_width (input : BitVec 64) : Nat.log2 input.toNat < 64 := by
  by_cases hzero : input.toNat = 0
  · rw [hzero]
    decide
  · exact (Nat.log2_lt hzero).mpr input.isLt

/-- The rounds made and the logarithm of what is left add up to the logarithm. -/
theorem kiLog2UInt_spec (input : BitVec 64) (s : Machine σ) :
    Returns (kiLog2UInt input) s fun r t =>
      r = (.success, BitVec.ofNat 64 (Nat.log2 input.toNat)) ∧ t = s := by
  rw [kiLog2UInt]
  refine Returns.bind (P := fun res t =>
    res = BitVec.ofNat 64 (Nat.log2 input.toNat) ∧ t = s) ?_ ?_
  · refine returns_iterate (fun k loc t => k = Nat.log2 loc.1.toNat ∧ t = s ∧
      ∃ i, loc.2 = BitVec.ofNat 64 i ∧ i + k = Nat.log2 input.toNat) ?_ loopBound
      (Nat.log2 input.toNat) (input, 0) s ?_ ⟨rfl, rfl, 0, rfl, Nat.zero_add _⟩
    · rintro k ⟨copy, res⟩ t ⟨hk, rfl, i, hres, hsum⟩
      dsimp only at hk hres ⊢
      have htwo : (2 : BitVec 64).toNat = 2 := rfl
      by_cases hmore : 2 ≤ copy
      · have hnat : 2 ≤ copy.toNat := hmore
        rw [if_pos hmore, returns_pure]
        refine ⟨k - 1, ?_, ?_, rfl, i + 1, ?_, ?_⟩
        · rw [hk, log2_halved hnat]
          omega
        · rw [hk, log2_halved hnat, BitVec.toNat_udiv, htwo]
          omega
        · rw [hres, BitVec.ofNat_add]
          rfl
        · rw [hk, log2_halved hnat] at hsum ⊢
          omega
      · have hnat : ¬ 2 ≤ copy.toNat := hmore
        rw [if_neg hmore, returns_pure, hres, ← hsum, hk, log2_small hnat]
        exact ⟨rfl, rfl⟩
    · have hlt := log2_lt_width input
      rw [loopBound]
      omega
  · intro res t ht
    rw [returns_pure, ht.1]
    exact ⟨rfl, ht.2⟩

theorem toNat_log2 (input : BitVec 64) :
    (BitVec.ofNat 64 (Nat.log2 input.toNat)).toNat = Nat.log2 input.toNat := by
  have hlt := log2_lt_width input
  rw [BitVec.toNat_ofNat]
  omega

theorem log2_mono {m n : Nat} (h : m ≤ n) : Nat.log2 m ≤ Nat.log2 n := by
  by_cases hm : m = 0
  · rw [hm, Nat.log2_zero]
    exact Nat.zero_le _
  · have hn : n ≠ 0 := by omega
    have hbelow : 2 ^ Nat.log2 m ≤ m := Nat.log2_self_le hm
    exact (Nat.le_log2 hn).mpr (Nat.le_trans hbelow h)

/-- The exponent of the highest power of two up to the input is the only one stored, for 0
it is 0, and a larger input never has a smaller one. -/
theorem kiLog2UInt_bracket (input : BitVec 64) (s : Machine σ) :
    Returns (kiLog2UInt input) s fun r t => t = s ∧ r.1 = .success ∧ r.2.toNat ≤ 63 ∧
      (input = 0 → r.2 = 0) ∧
      (1 ≤ input.toNat →
        ∀ k, 2 ^ k ≤ input.toNat ∧ input.toNat < 2 ^ (k + 1) ↔ r.2.toNat = k) ∧
      ∀ larger : BitVec 64, input.toNat ≤ larger.toNat →
        Returns (kiLog2UInt larger) s fun r' _ => r.2.toNat ≤ r'.2.toNat := by
  apply (kiLog2UInt_spec input s).mono
  rintro _ t ⟨rfl, rfl⟩
  dsimp only
  have hlt := log2_lt_width input
  rw [toNat_log2]
  refine ⟨rfl, rfl, by omega, ?_, ?_, ?_⟩
  · rintro rfl
    rfl
  · intro hpos k
    have hne : input.toNat ≠ 0 := by omega
    exact (Nat.log2_eq_iff hne).symm
  · intro larger hle
    apply (kiLog2UInt_spec larger t).mono
    rintro _ u ⟨rfl, -⟩
    dsimp only
    rw [toNat_log2]
    exact log2_mono hle

theorem toInt_pos_iff (input : BitVec 64) :
    0 < input.toInt ↔ input.toNat ≠ 0 ∧ 2 * input.toNat < 2 ^ 64 := by
  have hlt := input.isLt
  rw [BitVec.toInt_eq_toNat_cond]
  split <;> omega

/-- The negation of a positive number is above `2 ^ 63`. -/
theorem log2_neg_positive (h : 0 < input.toInt) : Nat.log2 (-input).toNat = 63 := by
  obtain ⟨hne, hsmall⟩ := (toInt_pos_iff input).mp h
  have hneg : (-input).toNat = 2 ^ 64 - input.toNat := by
    rw [BitVec.toNat_neg]
    omega
  rw [Nat.log2_eq_iff (by rw [hneg]; omega), hneg]
  omega

theorem kiLog2Int_spec (input : BitVec 64) (s : Machine σ) :
    Returns (kiLog2Int input) s fun r t =>
      r = (.success, if 0 < input.toInt then 63 else 0) ∧ t = s := by
  rw [kiLog2Int]
  apply (kiLog2UInt_spec input s).bind
  rintro _ t ⟨rfl, rfl⟩
  apply (kiLog2UInt_spec (-input) t).bind
  rintro _ u ⟨rfl, rfl⟩
  dsimp only
  rw [returns_pure]
  refine ⟨?_, rfl⟩
  by_cases hpos : 0 < input.toInt
  · rw [if_pos hpos, if_pos hpos, log2_neg_positive hpos, if_neg (by omega)]
    rfl
  · rw [if_neg hpos, if_neg hpos, if_pos (by omega)]
    simp

/-! ## The logarithm of the absolute value -/

/-- The logarithms of a number, of its negation and of its absolute value are the same. -/
def SameLog2 (s : Machine σ) (input : BitVec 64) : Prop :=
  ∃ v, Returns (kiLog2Int input) s (fun r _ => r = (.success, v)) ∧
    Returns (kiLog2Int (-input)) s (fun r _ => r = (.success, v)) ∧
    Returns (kiLog2UInt (BitVec.ofNat 64 input.toInt.natAbs)) s fun r _ => r = (.success, v)

theorem storesLog2_kiLog2Int_iff (n : Nat) :
    StoresLog2 (kiLog2Int input) s n ↔ IsLog2 n (if 0 < input.toInt then 63 else 0 : Int) := by
  have hint : ((if 0 < input.toInt then 63 else 0 : BitVec 64)).toInt =
      (if 0 < input.toInt then 63 else 0 : Int) := by
    split <;> rfl
  obtain ⟨r, t, he, hr, -⟩ := kiLog2Int_spec input s
  constructor
  · intro h
    have hlog := (h.of_eq he).2
    rw [hr, hint] at hlog
    exact hlog
  · intro h
    refine ⟨r, t, he, by rw [hr], ?_⟩
    rw [hr, hint]
    exact h

theorem natAbs_toInt_eq (input : BitVec 64) : input.toInt.natAbs =
    if 2 * input.toNat < 2 ^ 64 then input.toNat else 2 ^ 64 - input.toNat := by
  have hlt := input.isLt
  rw [BitVec.toInt_eq_toNat_cond]
  split <;> omega

/-- A positive number is below `2 ^ 63`, so 63 is never its logarithm. -/
theorem isLog2_natAbs_iff (hne : input ≠ 0) :
    IsLog2 input.toInt.natAbs (if 0 < input.toInt then 63 else 0 : Int) ↔ input = -1 := by
  have hlt := input.isLt
  have habs := natAbs_toInt_eq input
  have hnat : input.toNat ≠ 0 := fun h => hne (BitVec.eq_of_toNat_eq h)
  have hone : input = -1 ↔ input.toNat = 2 ^ 64 - 1 := by
    constructor
    · rintro rfl
      rfl
    · intro h
      exact BitVec.eq_of_toNat_eq h
  have hzero : input.toInt.natAbs ≠ 0 := by
    rw [habs]
    split <;> omega
  have hsign : 0 < input.toInt ↔ 2 * input.toNat < 2 ^ 64 := by
    rw [toInt_pos_iff]
    exact and_iff_right hnat
  rw [hone]
  by_cases hpos : 0 < input.toInt
  · rw [if_pos hpos, show (63 : Int) = (63 : Nat) from rfl, isLog2_iff hzero,
      Nat.log2_eq_iff hzero, habs, if_pos (hsign.mp hpos)]
    have hsmall := hsign.mp hpos
    omega
  · rw [if_neg hpos, show (0 : Int) = (0 : Nat) from rfl, isLog2_iff hzero,
      Nat.log2_eq_iff hzero, habs, if_neg (fun hc => hpos (hsign.mpr hc))]
    have hlarge : ¬ 2 * input.toNat < 2 ^ 64 := fun hc => hpos (hsign.mpr hc)
    omega

/-- Of a positive number and its negation one gives 63 and the other 0.  The lowest number
is its own negation, and has the logarithm 63. -/
theorem not_sameLog2 (hne : input ≠ 0) : ¬ SameLog2 s input := by
  rintro ⟨v, hinput, hneg, habs⟩
  obtain ⟨r, t, he, hr, -⟩ := kiLog2Int_spec input s
  obtain ⟨r', t', he', hr', -⟩ := kiLog2Int_spec (-input) s
  obtain ⟨r'', t'', he'', hr'', -⟩ :=
    kiLog2UInt_spec (BitVec.ofNat 64 input.toInt.natAbs) s
  have hv := hinput.of_eq he
  have hv' := hneg.of_eq he'
  have hv'' := habs.of_eq he''
  rw [hr, Prod.mk.injEq] at hv
  rw [hr', Prod.mk.injEq] at hv'
  rw [hr'', Prod.mk.injEq] at hv''
  have hsame := hv.2.trans hv'.2.symm
  have hlog := hv''.2.trans hv.2.symm
  have hlt := input.isLt
  have hnat : input.toNat ≠ 0 := fun h => hne (BitVec.eq_of_toNat_eq h)
  have hsign : 0 < input.toInt ↔ 2 * input.toNat < 2 ^ 64 := by
    rw [toInt_pos_iff]
    exact and_iff_right hnat
  have hsign' : 0 < (-input).toInt ↔ 2 ^ 64 < 2 * input.toNat := by
    rw [toInt_pos_iff, BitVec.toNat_neg]
    omega
  by_cases hpos : 0 < input.toInt
  · have hsmall := hsign.mp hpos
    rw [if_pos hpos, if_neg (by rw [hsign']; omega)] at hsame
    exact absurd hsame (by decide)
  · by_cases hpos' : 0 < (-input).toInt
    · rw [if_neg hpos, if_pos hpos'] at hsame
      exact absurd hsame (by decide)
    · have hlowest : input.toNat = 2 ^ 63 := by
        rw [hsign] at hpos
        rw [hsign'] at hpos'
        omega
      have hinput' : input = 0x8000000000000000 := BitVec.eq_of_toNat_eq hlowest
      rw [hinput'] at hlog
      exact absurd hlog (by decide)

/-- `KiLog2Int` stores the logarithm of the absolute value of one number only. -/
theorem kiLog2Int_log2_iff (hne : input ≠ 0) (s : Machine σ) :
    (StoresLog2 (kiLog2Int input) s input.toInt.natAbs ↔ input = -1) ∧ ¬ SameLog2 s input := by
  rw [storesLog2_kiLog2Int_iff]
  exact ⟨isLog2_natAbs_iff hne, not_sameLog2 hne⟩

theorem kiLog2Int_log2_iff_minus_one :
    (StoresLog2 (kiLog2Int (-1)) (Machine.mk (fun _ => 0) [] ()) (-1 : BitVec 64).toInt.natAbs ↔
      (-1 : BitVec 64) = -1) ∧ ¬ SameLog2 (Machine.mk (fun _ => 0) [] ()) (-1) :=
  kiLog2Int_log2_iff (by decide) _

/-- The numbers of the comment above the function, which says that they have the same
logarithm. -/
theorem kiLog2Int_of_4096 :
    ¬ StoresLog2 (kiLog2Int (-4096)) (Machine.mk (fun _ => 0) [] ()) 4096 ∧
    ¬ StoresLog2 (kiLog2Int 8000) (Machine.mk (fun _ => 0) [] ()) 8000 := by
  refine ⟨?_, ?_⟩
  · rw [storesLog2_kiLog2Int_iff, if_neg (by decide), show (0 : Int) = (0 : Nat) from rfl,
      isLog2_iff (by decide)]
    decide
  · rw [storesLog2_kiLog2Int_iff, if_pos (by decide), show (63 : Int) = (63 : Nat) from rfl,
      isLog2_iff (by decide)]
    decide

end Log2

end FeralKernel
