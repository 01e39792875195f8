import FeralKernel.Lib.MemRegions

/-!
# What a comparison depends on

`KiCompareMemory` takes the amount up to a multiple of four, as the other two functions
do.  Its answer is that of the rounded amount, so up to three bytes behind either buffer
can turn a `TRUE` into a `FALSE`.
-/

namespace FeralKernel

open Verif.Program Verif.Bytes

variable {σ : Type}

/-- The two memories hold the same `n` bytes at both pointers. -/
def AgreeOn (source dest : Ptr) (n : Nat) (m m' : Mem) : Prop :=
  ∀ k, k < n → m (physAt source k) = m' (physAt source k) ∧
    m (physAt dest k) = m' (physAt dest k)

/-- The answer of a comparison of `amount` bytes is the same in any two memories that agree
on those bytes. -/
def DependsOnlyOn (source dest : Ptr) (amount : BitVec 64) (s : Machine σ) : Prop :=
  ∀ m m', AgreeOn source dest amount.toNat m m' → ∃ answer,
    (Returns (kiCompareMemory source dest amount) (s.setMem m) fun r _ => r = answer) ∧
    Returns (kiCompareMemory source dest amount) (s.setMem m') fun r _ => r = answer

section Compare

variable {source dest : Ptr} {amount : BitVec 64} {m m' : Mem} {s : Machine σ}

theorem sameBytes_congr {n : Nat} (h : AgreeOn source dest n m m') :
    SameBytes m source dest n ↔ SameBytes m' source dest n := by
  constructor
  · intro hsame k hk
    have hbyte := hsame k hk
    have hagree := h k hk
    rw [physAt, physAt] at hagree
    rw [← hagree.1, ← hagree.2, hbyte]
  · intro hsame k hk
    have hbyte := hsame k hk
    have hagree := h k hk
    rw [physAt, physAt] at hagree
    rw [hagree.1, hagree.2, hbyte]

/-- The bytes behind the first `n`, up to the end of the last round. -/
theorem sameBytes_setBytes_iff :
    SameBytes m source dest (setBytes amount) ↔ SameBytes m source dest amount.toNat ∧
      ∀ k, amount.toNat ≤ k → k < setBytes amount → m (physAt source k) = m (physAt dest k) := by
  have hset := setBytes_eq amount
  constructor
  · intro h
    exact ⟨fun k hk => h k (by omega), fun k _ hk => h k hk⟩
  · intro h k hk
    by_cases hlt : k < amount.toNat
    · exact h.1 k hlt
    · exact h.2 k (by omega) hk

/-- The answer as a function of memory. -/
theorem kiCompareMemory_answer (hs : source ≠ 0) (hd : dest ≠ 0)
    (hamt : amount.toNat ≤ 2 ^ 32 - 4) {answer : FeralStatus × Option Bool} :
    (Returns (kiCompareMemory source dest amount) s fun r _ => r = answer) ↔
      ∃ b, answer = (.success, some b) ∧
        (b = true ↔ SameBytes s.mem source dest (setBytes amount)) := by
  obtain ⟨r, t, hrun, ⟨b, rfl, hb⟩, -⟩ := kiCompareMemory_spec (s := s) hs hd hamt
  constructor
  · intro h
    exact ⟨b, (h.of_eq hrun).symm, hb⟩
  · intro h
    obtain ⟨b', rfl, hb'⟩ := h
    refine returns_of_eq hrun ?_
    rw [Bool.eq_iff_iff.mpr (hb.trans hb'.symm)]

theorem kiCompareMemory_prefix_iff (hs : source ≠ 0) (hd : dest ≠ 0)
    (hamt : amount.toNat ≤ 2 ^ 32 - 4) :
    (Returns (kiCompareMemory source dest amount) s fun r _ => ∃ b, r = (.success, some b) ∧
      (b = true ↔ SameBytes s.mem source dest amount.toNat)) ↔
      (¬ SameBytes s.mem source dest amount.toNat ∨ ∀ k, amount.toNat ≤ k → k < setBytes amount →
        s.mem (physAt source k) = s.mem (physAt dest k)) := by
  obtain ⟨r, t, hrun, ⟨b, rfl, hb⟩, -⟩ := kiCompareMemory_spec (s := s) hs hd hamt
  rw [sameBytes_setBytes_iff] at hb
  constructor
  · intro h
    obtain ⟨b', he, hb'⟩ := h.of_eq hrun
    obtain rfl : b = b' := by
      injection he with _ he
      injection he
    rw [hb'] at hb
    by_cases hsame : SameBytes s.mem source dest amount.toNat
    · exact Or.inr (hb.mp hsame).2
    · exact Or.inl hsame
  · intro h
    refine returns_of_eq hrun ⟨b, rfl, hb.trans ?_⟩
    constructor
    · intro hall
      exact hall.1
    · intro hsame
      exact ⟨hsame, h.resolve_left fun hn => hn hsame⟩

/-- Behind two buffers there is a byte of one of them that neither holds. -/
theorem behind_outside (source dest : Ptr) {n k : Nat} (hn : n ≤ k) (hk : k < 2 ^ 32) :
    (∀ j, j < n → physAt source k ≠ physAt source j ∧ physAt source k ≠ physAt dest j) ∨
    ∀ j, j < n → physAt dest k ≠ physAt source j ∧ physAt dest k ≠ physAt dest j := by
  by_contra hnone
  rw [not_or] at hnone
  obtain ⟨h1, h2⟩ := hnone
  have hcross : ∀ a b : Ptr, (¬ ∀ j, j < n → physAt a k ≠ physAt a j ∧ physAt a k ≠ physAt b j) →
      ∃ j, j < n ∧ physAt a k = physAt b j := by
    intro a b h
    by_contra hno
    refine h fun j hj => ⟨fun he => ?_, fun he => hno ⟨j, hj, he⟩⟩
    have hkj := physAt_inj hk (by omega) he
    omega
  obtain ⟨i, hi, hei⟩ := hcross source dest h1
  obtain ⟨j, hj, hej⟩ := hcross dest source fun h => h2 fun j hj => ⟨(h j hj).2, (h j hj).1⟩
  have hls := source.isLt
  have hld := dest.isLt
  rw [physAt, physAt, phys, phys, toNat_offset _ (by omega), toNat_offset _ (by omega)] at hei hej
  split at hei <;> split at hei <;> split at hej <;> split at hej <;> omega

/-- A single byte told apart from cleared memory, behind both buffers, decides the answer. -/
theorem dependsOnlyOn_behind (hs : source ≠ 0) (hd : dest ≠ 0) (hamt : amount.toNat ≤ 2 ^ 32 - 4)
    (h : DependsOnlyOn source dest amount s) {k : Nat} (hn : amount.toNat ≤ k)
    (hk : k < setBytes amount) : physAt source k = physAt dest k := by
  have hset := setBytes_eq amount
  by_contra hne
  have hdiffer : ∀ x, (∀ j, j < amount.toNat → x ≠ physAt source j ∧ x ≠ physAt dest j) →
      write8 (fun _ => 0#8) x 1 (physAt source k) = write8 (fun _ => 0#8) x 1 (physAt dest k) := by
    intro x hx
    have hagree : AgreeOn source dest amount.toNat (fun _ => 0#8) (write8 (fun _ => 0#8) x 1) := by
      intro j hj
      rw [write8_outside (hx j hj).1.symm, write8_outside (hx j hj).2.symm]
      exact ⟨rfl, rfl⟩
    obtain ⟨answer, h0, h1⟩ := h _ _ hagree
    obtain ⟨b, rfl, hb⟩ := (kiCompareMemory_answer hs hd hamt).mp h0
    obtain ⟨b', he, hb'⟩ := (kiCompareMemory_answer hs hd hamt).mp h1
    obtain rfl : b = b' := by
      injection he with _ he
      injection he
    have htrue : b = true := hb.mpr fun _ _ => rfl
    exact hb'.mp htrue k hk
  rcases behind_outside source dest hn (by omega) with hout | hout
  · have hbyte := hdiffer _ hout
    rw [write8_same, write8_outside (fun he => hne he.symm)] at hbyte
    cases hbyte
  · have hbyte := hdiffer _ hout
    rw [write8_same, write8_outside hne] at hbyte
    cases hbyte

theorem dependsOnlyOn_iff (hs : source ≠ 0) (hd : dest ≠ 0) (hamt : amount.toNat ≤ 2 ^ 32 - 4) :
    DependsOnlyOn source dest amount s ↔
      ∀ k, amount.toNat ≤ k → k < setBytes amount → physAt source k = physAt dest k := by
  constructor
  · intro h k hn hk
    exact dependsOnlyOn_behind hs hd hamt h hn hk
  · intro h m m' hagree
    obtain ⟨r, t, hrun, ⟨b, rfl, hb⟩, -⟩ := kiCompareMemory_spec (s := s.setMem m) hs hd hamt
    refine ⟨(.success, some b), returns_of_eq hrun rfl, ?_⟩
    refine (kiCompareMemory_answer hs hd hamt).mpr ⟨b, rfl, hb.trans ?_⟩
    show SameBytes m source dest _ ↔ SameBytes m' source dest _
    rw [sameBytes_setBytes_iff, sameBytes_setBytes_iff, sameBytes_congr hagree]
    refine and_congr_right fun _ => ?_
    constructor
    · intro _ k hn hk
      rw [h k hn hk]
    · intro _ k hn hk
      rw [h k hn hk]

/-- The answer is that of the first `Amount` bytes exactly when these differ or the bytes up
to the next multiple of four agree as well, and it depends on nothing else exactly when those
are the same bytes of memory. -/
theorem kiCompareMemory_answers_iff (hs : source ≠ 0) (hd : dest ≠ 0)
    (hamt : amount.toNat < 2 ^ 32 - 4) (s : Machine σ) :
    ((Returns (kiCompareMemory source dest amount) s fun r _ => ∃ b, r = (.success, some b) ∧
        (b = true ↔ SameBytes s.mem source dest amount.toNat)) ↔
      (¬ SameBytes s.mem source dest amount.toNat ∨ ∀ k, amount.toNat ≤ k → k < setBytes amount →
        s.mem (physAt source k) = s.mem (physAt dest k))) ∧
    (DependsOnlyOn source dest amount s ↔
      ∀ k, amount.toNat ≤ k → k < setBytes amount → physAt source k = physAt dest k) :=
  ⟨kiCompareMemory_prefix_iff hs hd (by omega), dependsOnlyOn_iff hs hd (by omega)⟩

theorem kiCompareMemory_answers_iff_five :
    ((Returns (kiCompareMemory 0x1000 0x2000 5) strayMachine fun r _ => ∃ b,
        r = (.success, some b) ∧ (b = true ↔ SameBytes strayMachine.mem 0x1000 0x2000 5)) ↔
      (¬ SameBytes strayMachine.mem 0x1000 0x2000 5 ∨ ∀ k, 5 ≤ k → k < setBytes 5 →
        strayMachine.mem (physAt 0x1000 k) = strayMachine.mem (physAt 0x2000 k))) ∧
    (DependsOnlyOn 0x1000 0x2000 5 strayMachine ↔
      ∀ k, 5 ≤ k → k < setBytes 5 → physAt 0x1000 k = physAt 0x2000 k) := by
  have hamt : (5 : BitVec 64).toNat < 2 ^ 32 - 4 := by decide
  exact kiCompareMemory_answers_iff (by decide) (by decide) hamt strayMachine

/-- The first byte is the same at 4 KiB and at 8 KiB, but the one behind it is not, and a
comparison of one byte says `FALSE`. -/
theorem strayMachine_compare_one :
    SameBytes strayMachine.mem 0x1000 0x2000 1 ∧
    Returns (kiCompareMemory 0x1000 0x2000 1) strayMachine fun r _ => r = (.success, some false) := by
  refine ⟨fun k hk => ?_, ?_⟩
  · obtain rfl : k = 0 := by omega
    decide
  · refine (kiCompareMemory_answer (by decide) (by decide) (by decide)).mpr ⟨false, rfl, ?_⟩
    refine ⟨(fun h => nomatch h), fun h => ?_⟩
    have hbyte := h 1 (by decide)
    revert hbyte
    decide

end Compare

end FeralKernel
