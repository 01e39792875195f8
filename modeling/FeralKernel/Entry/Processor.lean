import FeralKernel.Machine
import Mathlib.Data.Nat.Bitwise

/-!
# What the processor says of itself

The functions around `cpuid` of `kern/arch/x86_64/boot/helper.asm`, and the family number that
`kern_init` computes from the third.
-/

namespace FeralKernel

/-! ## The processor -/

structure CpuidRegisters where
  eax : BitVec 32
  ebx : BitVec 32
  ecx : BitVec 32
  edx : BitVec 32

/-- What the instruction leaves in the registers for each value of `eax`. -/
abbrev Cpuid : Type := BitVec 32 → CpuidRegisters

/-- `part1`, `part2` and `part3`. -/
def cpuidVendorFunc (cpuid : Cpuid) : BitVec 32 × BitVec 32 × BitVec 32 :=
  let regs := cpuid 0
  (regs.ebx, regs.edx, regs.ecx)

/-- The four parts, of which the first is also what is asked for. -/
def cpuidBrandName (cpuid : Cpuid) (part1 : BitVec 32) :
    BitVec 32 × BitVec 32 × BitVec 32 × BitVec 32 :=
  let regs := cpuid part1
  (regs.eax, regs.ebx, regs.ecx, regs.edx)

def cpuidFamilyNumber (cpuid : Cpuid) : BitVec 32 := (cpuid 1).eax

/-- `CPU_x86_64_FAMILY_ZEN`. -/
def cpuFamilyZen : BitVec 32 := 0x17

/-- What `kern_init` computes from `familyStuff`. -/
def actualFamily (familyStuff : BitVec 32) : BitVec 32 :=
  let family := (familyStuff >>> 8) &&& 15
  if family = 0x6 ∨ family = 0xF then
    let family := if family = 15 then family + ((familyStuff >>> 20) &&& 0x0FFFFFFF) else family
    family + ((familyStuff >>> 16) &&& 0x4)
  else family

/-! ## Which processors are supported -/

/-- Family 15 with an extended family of 8 and bit 2 of the extended model clear, or with one of 4
and that bit set. -/
def TakenForZen (familyStuff : BitVec 32) : Prop :=
  familyStuff.toNat / 2 ^ 8 % 16 = 15 ∧
    (familyStuff.toNat / 2 ^ 20 = 8 ∧ familyStuff.toNat / 2 ^ 18 % 2 = 0 ∨
      familyStuff.toNat / 2 ^ 20 = 4 ∧ familyStuff.toNat / 2 ^ 18 % 2 = 1)

instance (familyStuff : BitVec 32) : Decidable (TakenForZen familyStuff) :=
  inferInstanceAs (Decidable (_ ∧ _))

section Family

variable {x : BitVec 32}

theorem toNat_family : ((x >>> 8) &&& 15).toNat = x.toNat / 2 ^ 8 % 16 := by
  rw [BitVec.toNat_and, BitVec.toNat_ushiftRight, Nat.shiftRight_eq_div_pow,
    show (15 : BitVec 32).toNat = 2 ^ 4 - 1 from rfl, Nat.and_two_pow_sub_one_eq_mod]

theorem toNat_extendedFamily : ((x >>> 20) &&& 0x0FFFFFFF).toNat = x.toNat / 2 ^ 20 := by
  have hlt := x.isLt
  rw [BitVec.toNat_and, BitVec.toNat_ushiftRight, Nat.shiftRight_eq_div_pow,
    show (0x0FFFFFFF : BitVec 32).toNat = 2 ^ 28 - 1 from rfl, Nat.and_two_pow_sub_one_eq_mod]
  omega

theorem toNat_modelBit :
    ((x >>> 16) &&& 0x4).toNat = 4 * (x.toNat / 2 ^ 18 % 2) := by
  have hbit : x.toNat / 2 ^ 16 / 2 ^ 2 = x.toNat / 2 ^ 18 := Nat.div_div_eq_div_mul _ _ _
  rw [BitVec.toNat_and, BitVec.toNat_ushiftRight, Nat.shiftRight_eq_div_pow,
    show (0x4 : BitVec 32).toNat = 2 ^ 2 from rfl, Nat.and_two_pow,
    Nat.testBit_eq_decide_div_mod_eq, hbit]
  rcases Nat.mod_two_eq_zero_or_one (x.toNat / 2 ^ 18) with h | h
  · rw [h]
    rfl
  · rw [h]
    rfl

theorem actualFamily_zen_iff : actualFamily x = cpuFamilyZen ↔ TakenForZen x := by
  have hlt := x.isLt
  have hfam := toNat_family (x := x)
  have hext := toNat_extendedFamily (x := x)
  have hbit := toNat_modelBit (x := x)
  have hext_lt : x.toNat / 2 ^ 20 < 2 ^ 12 := by omega
  have hbit_lt := Nat.mod_lt (x.toNat / 2 ^ 18) (show 0 < 2 by decide)
  rw [TakenForZen, actualFamily, ← hfam, ← hext]
  rw [← hext] at hext_lt
  dsimp only
  generalize x.toNat / 2 ^ 18 % 2 = model at hbit hbit_lt ⊢
  generalize (x >>> 8) &&& 15 = family at hfam ⊢
  generalize (x >>> 20) &&& 0x0FFFFFFF = extended at hext_lt ⊢
  generalize (x >>> 16) &&& 0x4 = bit at hbit ⊢
  have h15 : family = 15 ↔ family.toNat = 15 := by
    rw [← BitVec.toNat_inj]
    rfl
  have h6 : family = 0x6 ↔ family.toNat = 6 := by
    rw [← BitVec.toNat_inj]
    rfl
  rw [← BitVec.toNat_inj, show cpuFamilyZen.toNat = 23 from rfl]
  by_cases hf : family.toNat = 15
  · rw [if_pos (Or.inr (h15.mpr hf)), if_pos (h15.mpr hf), BitVec.toNat_add, BitVec.toNat_add,
      hf, hbit]
    omega
  · by_cases h : family.toNat = 6
    · rw [if_pos (Or.inl (h6.mpr h)), if_neg (mt h15.mp hf), BitVec.toNat_add, h, hbit]
      omega
    · rw [if_neg]
      · omega
      · rintro (hc | hc)
        · exact h (h6.mp hc)
        · exact hf (h15.mp hc)

end Family
end FeralKernel
