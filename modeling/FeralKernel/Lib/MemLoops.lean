import FeralKernel.Lib.MemRegions

/-!
# The ends of the memory loops

`KiSetMemoryBytes` counts with a `UINT64`, and `KiCopyMemory` and the second loop of
`KiCompareMemory` with a `UINT32`.  All three compare the index with a 64-bit amount.  A
32-bit index that goes up by four never gets past `2^32 - 4`, so a larger amount keeps the
loop going round for ever.
-/

namespace FeralKernel

open Verif.Program Verif.Bytes

variable {σ : Type}

/-- A 32-bit multiple of four is below every amount that the index cannot reach. -/
theorem index_lt_large {amount : BitVec 64} (hamt : 2 ^ 32 - 4 < amount.toNat) {index : BitVec 32}
    (hindex : index.toNat % 4 = 0) : index.setWidth 64 < amount := by
  have hlt := index.isLt
  rw [BitVec.lt_def, BitVec.toNat_setWidth]
  omega

/-- The next index, round the end of the 32 bits or not. -/
theorem index_next {index : BitVec 32} (hindex : index.toNat % 4 = 0) :
    (index + 4).toNat % 4 = 0 := by
  rw [BitVec.toNat_add, show (4 : BitVec 32).toNat = 4 from rfl]
  omega

section Loops

variable {dest source : Ptr} {amount : BitVec 64} {s : Machine σ}

theorem kiCopyMemory_hangs (hsource : source ≠ 0) (hdest : dest ≠ 0)
    (hamt : 2 ^ 32 - 4 < amount.toNat) {Q : FeralStatus → Machine σ → Prop} :
    ¬ Returns (kiCopyMemory dest source amount) s Q := by
  rw [kiCopyMemory, if_neg (fun h => h.elim hsource hdest), returns_bind]
  refine not_returns_iterate (fun index _ => index.toNat % 4 = 0) ?_ loopBound 0 s rfl
  intro index t hindex
  rw [if_pos (index_lt_large hamt hindex)]
  simp only [copyByte, returns_bind, returns_load8, returns_store8, returns_pure]
  exact ⟨_, rfl, index_next hindex⟩

theorem kiCompareMemory_hangs (hsource : source ≠ 0) (hdest : dest ≠ 0)
    (hamt : 2 ^ 32 - 4 < amount.toNat) {Q : FeralStatus × Option Bool → Machine σ → Prop} :
    ¬ Returns (kiCompareMemory source dest amount) s Q := by
  rw [kiCompareMemory, if_neg (fun h => h.elim hsource hdest), returns_bind]
  intro h
  obtain ⟨_, t, -, h⟩ := h
  rw [returns_bind] at h
  refine not_returns_iterate (fun (b : BitVec 32 × Comparisons) _ => b.1.toNat % 4 = 0) ?_
    loopBound _ t rfl h
  intro b u hindex
  obtain ⟨index, c⟩ := b
  dsimp only at hindex ⊢
  rw [if_pos (index_lt_large hamt hindex)]
  simp only [returns_bind, returns_load8, returns_pure]
  exact ⟨_, rfl, index_next hindex⟩

/-- The three cases of a call that checks its pointers and then counts in 32 bits. -/
theorem returns_iff_amount {α : Type} {x : Kern σ α}
    (hnull : source = 0 ∨ dest = 0 → Returns x s fun _ _ => True)
    (hsmall : source ≠ 0 → dest ≠ 0 → amount.toNat ≤ 2 ^ 32 - 4 → Returns x s fun _ _ => True)
    (hlarge : source ≠ 0 → dest ≠ 0 → 2 ^ 32 - 4 < amount.toNat →
      ¬ Returns x s fun _ _ => True) :
    (Returns x s fun _ _ => True) ↔ source = 0 ∨ dest = 0 ∨ amount.toNat ≤ 2 ^ 32 - 4 := by
  by_cases hz : source = 0 ∨ dest = 0
  · rw [← or_assoc]
    exact ⟨fun _ => Or.inl hz, fun _ => hnull hz⟩
  · obtain ⟨hsource, hdest⟩ := not_or.mp hz
    constructor
    · intro h
      refine Or.inr (Or.inr (Nat.le_of_not_lt fun hlt => ?_))
      exact hlarge hsource hdest hlt h
    · intro h
      exact hsmall hsource hdest ((h.resolve_left hsource).resolve_left hdest)

theorem kiCopyMemory_returns_iff :
    (Returns (kiCopyMemory dest source amount) s fun _ _ => True) ↔
      source = 0 ∨ dest = 0 ∨ amount.toNat ≤ 2 ^ 32 - 4 := by
  apply returns_iff_amount
  · intro hnull
    rw [kiCopyMemory, if_pos hnull, returns_pure]
    trivial
  · intro hsource hdest hamt
    exact (kiCopyMemory_rule (fun _ _ => True) hsource hdest hamt (fun _ _ _ _ => trivial)
      trivial).mono fun _ _ _ => trivial
  · intro hsource hdest hamt
    exact kiCopyMemory_hangs hsource hdest hamt

theorem kiCompareMemory_returns_iff :
    (Returns (kiCompareMemory source dest amount) s fun _ _ => True) ↔
      source = 0 ∨ dest = 0 ∨ amount.toNat ≤ 2 ^ 32 - 4 := by
  apply returns_iff_amount
  · intro hnull
    rw [kiCompareMemory, if_pos hnull, returns_pure]
    trivial
  · intro hsource hdest hamt
    exact (kiCompareMemory_spec hsource hdest hamt).mono fun _ _ _ => trivial
  · intro hsource hdest hamt
    exact kiCompareMemory_hangs hsource hdest hamt

/-- Copying and comparing come back exactly when a 32-bit index can reach the amount or a
pointer is null.  Setting always does. -/
theorem memFuncs_return_iff (dest source : Ptr) (val : BitVec 8) {amount : BitVec 64}
    (hamt : amount.toNat ≤ 2 ^ 64 - 4) (s : Machine σ) :
    ((Returns (kiCopyMemory dest source amount) s fun _ _ => True) ↔
      source = 0 ∨ dest = 0 ∨ amount.toNat ≤ 2 ^ 32 - 4) ∧
    ((Returns (kiCompareMemory source dest amount) s fun _ _ => True) ↔
      source = 0 ∨ dest = 0 ∨ amount.toNat ≤ 2 ^ 32 - 4) ∧
    Returns (kiSetMemoryBytes dest val amount) s fun _ _ => True := by
  refine ⟨kiCopyMemory_returns_iff, kiCompareMemory_returns_iff, ?_⟩
  exact (kiSetMemoryBytes_sets hamt).mono fun _ _ _ => trivial

theorem memFuncs_return_iff_large :
    ((Returns (kiCopyMemory 0x1000 0x2000 0xFFFFFFFD) strayMachine fun _ _ => True) ↔
      (0x2000 : Ptr) = 0 ∨ (0x1000 : Ptr) = 0 ∨ (0xFFFFFFFD : BitVec 64).toNat ≤ 2 ^ 32 - 4) ∧
    ((Returns (kiCompareMemory 0x2000 0x1000 0xFFFFFFFD) strayMachine fun _ _ => True) ↔
      (0x2000 : Ptr) = 0 ∨ (0x1000 : Ptr) = 0 ∨ (0xFFFFFFFD : BitVec 64).toNat ≤ 2 ^ 32 - 4) ∧
    Returns (kiSetMemoryBytes 0x1000 0 0xFFFFFFFD) strayMachine fun _ _ => True :=
  memFuncs_return_iff 0x1000 0x2000 0 (by decide) strayMachine

/-- Three bytes short of 4 GiB, neither comes back. -/
theorem copy_and_compare_hang :
    ¬ (Returns (kiCopyMemory 0x1000 0x2000 0xFFFFFFFD) strayMachine fun _ _ => True) ∧
    ¬ Returns (kiCompareMemory 0x2000 0x1000 0xFFFFFFFD) strayMachine fun _ _ => True :=
  ⟨kiCopyMemory_hangs (by decide) (by decide) (by decide),
    kiCompareMemory_hangs (by decide) (by decide) (by decide)⟩

end Loops

end FeralKernel
