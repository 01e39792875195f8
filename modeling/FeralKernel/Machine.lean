import FeralKernel.Library.Program
import FeralKernel.Library.Bytes
import Mathlib.Tactic.Common

/-!
# The machine the kernel runs on

The kernel is mapped twice at boot: the low half is the identity and the half
from `KERN_VIRT_OFFSET` up is the same physical memory again.  The code relies on
that, since it clears a block through its physical address and then uses it
through `KERN_PHYS_TO_VIRT`.  So there is one physical memory, and `phys` takes a
pointer of either half to the byte it denotes.

Every load and store is recorded in `log`, which no code reads.  It is what the
statements about which bytes an operation touches are about.
-/

namespace FeralKernel

open Verif.Program Verif.Bytes

/-- A 64-bit pointer or `UINT_PTR`. -/
abbrev Ptr : Type := BitVec 64

/-- The codes of `FERALSTATUS` that the modelled functions return. -/
inductive FeralStatus where
  | success
  | memoryAccessViolation
  | memoryPageFailure
  | memoryPageConflict
  | invalidMemoryLocation
deriving DecidableEq, Repr

/-- Why a call never comes back. -/
inductive Stop where
  /-- A loop that goes round for ever. -/
  | hang
  /-- `KiStopError`, which ends in an empty loop. -/
  | stopError (status : FeralStatus)
  /-- The processor's divide error. -/
  | divideError
deriving DecidableEq, Repr

/-- What is recorded of a run.  `link` marks the point where a page-table entry
is pointed at a newly obtained table. -/
inductive Event where
  | read (a : Ptr) (n : Nat)
  | write (a : Ptr) (n : Nat)
  | link (slot table : Ptr)
deriving DecidableEq, Repr

/-- Physical memory, the record of the run and the static variables `σ` of the
code at hand. -/
structure Machine (σ : Type) where
  mem : Mem
  log : List Event
  statics : σ

/-- Kernel code over the static variables `σ`. -/
abbrev Kern (σ α : Type) : Type := Prog (Machine σ) Stop α

/-! ## Addresses -/

def kernVirtOffset : Ptr := 0xFFFFFF8000000000

def kernVirtToPhys (x : Ptr) : Ptr := x - kernVirtOffset

def kernPhysToVirt (x : Ptr) : Ptr := x + kernVirtOffset

def pageAlign (x : BitVec 64) : BitVec 64 := x &&& 0xFFFFFFFFFFFFF000

/-- The physical address a pointer denotes: the low half is mapped to itself and
the half from `KERN_VIRT_OFFSET` up to the same memory from zero. -/
def phys (a : Ptr) : Nat :=
  if 0xFFFFFF8000000000 ≤ a.toNat then a.toNat - 0xFFFFFF8000000000 else a.toNat

/-- The `n` bytes from `a` lie in one half, so that they are consecutive in
physical memory. -/
def Spans (a : Ptr) (n : Nat) : Prop :=
  a.toNat + n ≤ 2 ^ 64 ∧ (a.toNat < 0xFFFFFF8000000000 → a.toNat + n ≤ 0xFFFFFF8000000000)

/-- The `n` bytes of physical memory from `a` have an image in the upper half,
which is 512 GiB long. -/
def InWindow (a : Ptr) (n : Nat) : Prop := a.toNat + n ≤ 0x8000000000

theorem toNat_kernVirtOffset : kernVirtOffset.toNat = 0xFFFFFF8000000000 := rfl

/-- Clearing the low `k` bits rounds down. -/
theorem toNat_and_highBits {w : Nat} (x : BitVec w) (k : Nat) :
    (x &&& BitVec.allOnes w <<< k).toNat = x.toNat / 2 ^ k * 2 ^ k := by
  have hle : x.toNat / 2 ^ k * 2 ^ k ≤ x.toNat := Nat.div_mul_le_self _ _
  rw [← BitVec.shiftLeft_ushiftRight, BitVec.toNat_shiftLeft, BitVec.toNat_ushiftRight,
    Nat.shiftRight_eq_div_pow, Nat.shiftLeft_eq, Nat.mod_eq_of_lt (Nat.lt_of_le_of_lt hle x.isLt)]

/-- An offset that does not wrap around. -/
theorem toNat_add_ofNat {a : Ptr} {k : Nat} (h : a.toNat + k < 2 ^ 64) :
    (a + BitVec.ofNat 64 k).toNat = a.toNat + k := by
  rw [BitVec.toNat_add, BitVec.toNat_ofNat]
  omega

theorem phys_add {a : Ptr} {n k : Nat} (h : Spans a n) (hk : k < n) :
    phys (a + BitVec.ofNat 64 k) = phys a + k := by
  unfold Spans at h
  unfold phys
  rw [toNat_add_ofNat (by omega)]
  split <;> split <;> omega

/-- A small offset from a pointer into the low half. -/
theorem phys_low {a : Ptr} (ha : a.toNat ≤ 2 ^ 60) {k : Nat} (hk : k ≤ 2 ^ 60) :
    phys (a + BitVec.ofNat 64 k) = a.toNat + k := by
  rw [phys, toNat_add_ofNat (by omega), if_neg (by omega)]

theorem Spans.mono {a : Ptr} {n k : Nat} (h : Spans a n) (hk : k ≤ n) : Spans a k := by
  unfold Spans at *
  omega

theorem Spans.add_ne_zero {a : Ptr} {n k : Nat} (h : Spans a n) (hk : k < n) (hpos : 0 < k) :
    a + BitVec.ofNat 64 k ≠ 0 := by
  intro hz
  have hend := h.1
  have hnat := congrArg BitVec.toNat hz
  rw [BitVec.toNat_add, BitVec.toNat_ofNat, show (0 : BitVec 64).toNat = 0 from rfl] at hnat
  omega

/-- A block inside a spanning block spans. -/
theorem Spans.sub {a : Ptr} {n k j : Nat} (h : Spans a n) (hk : k + j ≤ n) (hkn : k < n) :
    Spans (a + BitVec.ofNat 64 k) j := by
  unfold Spans at *
  rw [toNat_add_ofNat (by omega)]
  omega

theorem InWindow.mono {a : Ptr} {n k : Nat} (h : InWindow a n) (hk : k ≤ n) : InWindow a k := by
  unfold InWindow at *
  omega

theorem InWindow.spans {a : Ptr} {n : Nat} (h : InWindow a n) : Spans a (n + 4096) := by
  unfold InWindow at h
  unfold Spans
  omega

theorem InWindow.phys_eq {a : Ptr} {n : Nat} (h : InWindow a n) : phys a = a.toNat := by
  unfold InWindow at h
  unfold phys
  rw [if_neg (by omega)]

theorem toNat_kernPhysToVirt {a : Ptr} {n : Nat} (h : InWindow a n) (hn : 0 < n) :
    (kernPhysToVirt a).toNat = a.toNat + 0xFFFFFF8000000000 := by
  unfold InWindow at h
  rw [kernPhysToVirt, BitVec.toNat_add, toNat_kernVirtOffset]
  omega

theorem phys_kernPhysToVirt {a : Ptr} {n : Nat} (h : InWindow a n) (hn : 0 < n) :
    phys (kernPhysToVirt a) = a.toNat := by
  unfold phys
  rw [toNat_kernPhysToVirt h hn, if_pos (by omega)]
  omega

theorem spans_kernPhysToVirt {a : Ptr} {n : Nat} (h : InWindow a n) (hn : 0 < n) :
    Spans (kernPhysToVirt a) n := by
  have ha := toNat_kernPhysToVirt h hn
  unfold InWindow at h
  unfold Spans
  omega

/-! ## Loads and stores -/

namespace Machine

variable {σ : Type}

def note (s : Machine σ) (e : Event) : Machine σ := { s with log := e :: s.log }

def setMem (s : Machine σ) (m : Mem) : Machine σ := { s with mem := m }

@[simp] theorem note_mem (s : Machine σ) (e : Event) : (s.note e).mem = s.mem := rfl

@[simp] theorem note_statics (s : Machine σ) (e : Event) : (s.note e).statics = s.statics := rfl

@[simp] theorem note_log (s : Machine σ) (e : Event) : (s.note e).log = e :: s.log := rfl

@[simp] theorem setMem_mem (s : Machine σ) (m : Mem) : (s.setMem m).mem = m := rfl

@[simp] theorem setMem_statics (s : Machine σ) (m : Mem) : (s.setMem m).statics = s.statics := rfl

@[simp] theorem setMem_log (s : Machine σ) (m : Mem) : (s.setMem m).log = s.log := rfl

end Machine

variable {σ : Type}

def load8 (a : Ptr) : Kern σ (BitVec 8) := fun s =>
  .ok (s.mem (phys a), s.note (.read a 1))

def load16 (a : Ptr) : Kern σ (BitVec 16) := fun s =>
  .ok (read16 s.mem (phys a), s.note (.read a 2))

def load32 (a : Ptr) : Kern σ (BitVec 32) := fun s =>
  .ok (read32 s.mem (phys a), s.note (.read a 4))

def load64 (a : Ptr) : Kern σ (BitVec 64) := fun s =>
  .ok (read64 s.mem (phys a), s.note (.read a 8))

def store8 (a : Ptr) (v : BitVec 8) : Kern σ Unit := fun s =>
  .ok ((), (s.setMem (write8 s.mem (phys a) v)).note (.write a 1))

def store16 (a : Ptr) (v : BitVec 16) : Kern σ Unit := fun s =>
  .ok ((), (s.setMem (write16 s.mem (phys a) v)).note (.write a 2))

def store32 (a : Ptr) (v : BitVec 32) : Kern σ Unit := fun s =>
  .ok ((), (s.setMem (write32 s.mem (phys a) v)).note (.write a 4))

def store64 (a : Ptr) (v : BitVec 64) : Kern σ Unit := fun s =>
  .ok ((), (s.setMem (write64 s.mem (phys a) v)).note (.write a 8))

/-- Dividing by zero stops the processor. -/
def divide {w : Nat} (x y : BitVec w) : Kern σ (BitVec w) :=
  if y = 0 then stop .divideError else pure (x / y)

/-- Record an event that is not a memory access. -/
def record (e : Event) : Kern σ Unit := fun s => .ok ((), s.note e)

def getStatics : Kern σ σ := fun s => .ok (s.statics, s)

def setStatics (v : σ) : Kern σ Unit := fun s => .ok ((), { s with statics := v })

def modifyStatics (f : σ → σ) : Kern σ Unit := fun s =>
  .ok ((), { s with statics := f s.statics })

/-- A step that always returns is described by the state it returns. -/
theorem returns_ok {α : Type} {x : Kern σ α} {s t : Machine σ} {a : α} (h : x s = .ok (a, t))
    {Q : α → Machine σ → Prop} : Returns x s Q ↔ Q a t := by
  constructor
  · intro hx
    exact hx.of_eq h
  · intro hQ
    exact ⟨a, t, h, hQ⟩

@[simp] theorem returns_load8 {a : Ptr} {s : Machine σ} {Q : BitVec 8 → Machine σ → Prop} :
    Returns (load8 a) s Q ↔ Q (s.mem (phys a)) (s.note (.read a 1)) := returns_ok rfl

@[simp] theorem returns_load16 {a : Ptr} {s : Machine σ} {Q : BitVec 16 → Machine σ → Prop} :
    Returns (load16 a) s Q ↔ Q (read16 s.mem (phys a)) (s.note (.read a 2)) := returns_ok rfl

@[simp] theorem returns_load32 {a : Ptr} {s : Machine σ} {Q : BitVec 32 → Machine σ → Prop} :
    Returns (load32 a) s Q ↔ Q (read32 s.mem (phys a)) (s.note (.read a 4)) := returns_ok rfl

@[simp] theorem returns_load64 {a : Ptr} {s : Machine σ} {Q : BitVec 64 → Machine σ → Prop} :
    Returns (load64 a) s Q ↔ Q (read64 s.mem (phys a)) (s.note (.read a 8)) := returns_ok rfl

@[simp] theorem returns_store8 {a : Ptr} {v : BitVec 8} {s : Machine σ}
    {Q : Unit → Machine σ → Prop} :
    Returns (store8 a v) s Q ↔
      Q () ((s.setMem (write8 s.mem (phys a) v)).note (.write a 1)) := returns_ok rfl

@[simp] theorem returns_store16 {a : Ptr} {v : BitVec 16} {s : Machine σ}
    {Q : Unit → Machine σ → Prop} :
    Returns (store16 a v) s Q ↔
      Q () ((s.setMem (write16 s.mem (phys a) v)).note (.write a 2)) := returns_ok rfl

@[simp] theorem returns_store32 {a : Ptr} {v : BitVec 32} {s : Machine σ}
    {Q : Unit → Machine σ → Prop} :
    Returns (store32 a v) s Q ↔
      Q () ((s.setMem (write32 s.mem (phys a) v)).note (.write a 4)) := returns_ok rfl

@[simp] theorem returns_store64 {a : Ptr} {v : BitVec 64} {s : Machine σ}
    {Q : Unit → Machine σ → Prop} :
    Returns (store64 a v) s Q ↔
      Q () ((s.setMem (write64 s.mem (phys a) v)).note (.write a 8)) := returns_ok rfl

@[simp] theorem returns_divide {w : Nat} {x y : BitVec w} {s : Machine σ}
    {Q : BitVec w → Machine σ → Prop} : Returns (divide x y) s Q ↔ y ≠ 0 ∧ Q (x / y) s := by
  rw [divide]
  by_cases hy : y = 0
  · rw [if_pos hy]
    constructor
    · intro h
      exact absurd h not_returns_stop
    · intro h
      exact absurd hy h.1
  · rw [if_neg hy, returns_pure]
    exact ⟨fun hQ => ⟨hy, hQ⟩, And.right⟩

@[simp] theorem ensures_divide {w : Nat} {x y : BitVec w} {s : Machine σ}
    {Q : BitVec w → Machine σ → Prop} : Ensures (divide x y) s Q ↔ (y ≠ 0 → Q (x / y) s) := by
  rw [divide]
  by_cases hy : y = 0
  · rw [if_pos hy]
    exact ⟨fun _ hne => absurd hy hne, fun _ => ensures_stop⟩
  · rw [if_neg hy, ensures_pure]
    exact ⟨fun hQ _ => hQ, fun hQ => hQ hy⟩

@[simp] theorem returns_record {e : Event} {s : Machine σ} {Q : Unit → Machine σ → Prop} :
    Returns (record e) s Q ↔ Q () (s.note e) := returns_ok rfl

@[simp] theorem returns_getStatics {s : Machine σ} {Q : σ → Machine σ → Prop} :
    Returns getStatics s Q ↔ Q s.statics s := returns_ok rfl

@[simp] theorem returns_setStatics {v : σ} {s : Machine σ} {Q : Unit → Machine σ → Prop} :
    Returns (setStatics v) s Q ↔ Q () { s with statics := v } := returns_ok rfl

@[simp] theorem returns_modifyStatics {f : σ → σ} {s : Machine σ} {Q : Unit → Machine σ → Prop} :
    Returns (modifyStatics f) s Q ↔ Q () { s with statics := f s.statics } := returns_ok rfl

/-! ## The tables a run has linked -/

/-- The tables linked so far, the newest first. -/
def linked : List Event → List Ptr
  | [] => []
  | .link _ table :: rest => table :: linked rest
  | .read _ _ :: rest => linked rest
  | .write _ _ :: rest => linked rest

/-! ## What a run has recorded -/

def IsRead (e : Event) : Prop := ∃ a n, e = .read a n

/-- From `s` to `t` only events that satisfy `P` were recorded. -/
def Records (P : Event → Prop) (s t : Machine σ) : Prop :=
  ∃ new, t.log = new ++ s.log ∧ ∀ e ∈ new, P e

namespace Records

variable {P P' : Event → Prop} {s t u : Machine σ}

theorem refl (P : Event → Prop) (s : Machine σ) : Records P s s :=
  ⟨[], rfl, fun _ he => nomatch he⟩

theorem note (h : Records P s t) {e : Event} (he : P e) (hlog : u.log = e :: t.log) :
    Records P s u := by
  obtain ⟨new, hnew, hall⟩ := h
  refine ⟨e :: new, ?_, ?_⟩
  · rw [hlog, hnew]
    rfl
  · intro e' he'
    rcases List.mem_cons.mp he' with rfl | he'
    · exact he
    · exact hall e' he'

theorem trans (h : Records P s t) (h' : Records P t u) : Records P s u := by
  obtain ⟨new, hnew, hall⟩ := h
  obtain ⟨new', hnew', hall'⟩ := h'
  refine ⟨new' ++ new, ?_, ?_⟩
  · rw [hnew', hnew, List.append_assoc]
  · intro e he
    rcases List.mem_append.mp he with he | he
    · exact hall' e he
    · exact hall e he

theorem mono (h : Records P s t) (hP : ∀ e, P e → P' e) : Records P' s t := by
  obtain ⟨new, hnew, hall⟩ := h
  exact ⟨new, hnew, fun e he => hP e (hall e he)⟩

theorem of_log_eq (h : Records P s t) (hlog : u.log = t.log) : Records P s u := by
  obtain ⟨new, hnew, hall⟩ := h
  exact ⟨new, hlog.trans hnew, hall⟩

end Records

/-! ## Code that leaves the static variables alone -/

/-- Whenever `x` returns, the static variables are what they were. -/
def KeepsStatics {α : Type} (x : Kern σ α) : Prop :=
  ∀ s, Ensures x s fun _ t => t.statics = s.statics

namespace KeepsStatics

variable {α β ρ : Type}

theorem pure (a : α) : KeepsStatics (Pure.pure a : Kern σ α) := fun _ => ensures_pure.mpr rfl

theorem bind {x : Kern σ α} {f : α → Kern σ β} (hx : KeepsStatics x)
    (hf : ∀ a, KeepsStatics (f a)) : KeepsStatics (x >>= f) := by
  intro s
  refine (hx s).bind ?_
  intro a t ht
  refine (hf a t).mono ?_
  intro _ u hu
  rw [hu, ht]

theorem iterate {step : β → Kern σ (ρ ⊕ β)} (h : ∀ b, KeepsStatics (step b)) (fuel : Nat)
    (b : β) : KeepsStatics (Verif.Program.iterate .hang step fuel b) := by
  intro s
  refine ensures_iterate (fun _ t => t.statics = s.statics) ?_ fuel b s rfl
  intro b t ht
  refine (h b t).mono ?_
  intro r u hu
  cases r with
  | inl a => exact hu.trans ht
  | inr b' => exact hu.trans ht

theorem forRange {body : Nat → β → Kern σ β} (h : ∀ i b, KeepsStatics (body i b)) (n i : Nat)
    (b : β) : KeepsStatics (Verif.Program.forRange body n i b) := by
  intro s
  refine ensures_forRange (fun _ t => t.statics = s.statics) ?_ n i b s rfl
  intro i b t ht
  refine (h i b t).mono ?_
  intro _ u hu
  exact hu.trans ht

theorem divide {w : Nat} (x y : BitVec w) : KeepsStatics (FeralKernel.divide x y : Kern σ _) := by
  rw [FeralKernel.divide]
  split
  · exact fun _ => ensures_stop
  · exact .pure _

theorem load8 (a : Ptr) : KeepsStatics (FeralKernel.load8 a : Kern σ _) :=
  fun _ => (returns_load8.mpr rfl).ensures

theorem load32 (a : Ptr) : KeepsStatics (FeralKernel.load32 a : Kern σ _) :=
  fun _ => (returns_load32.mpr rfl).ensures

theorem load64 (a : Ptr) : KeepsStatics (FeralKernel.load64 a : Kern σ _) :=
  fun _ => (returns_load64.mpr rfl).ensures

theorem store8 (a : Ptr) (v : BitVec 8) : KeepsStatics (FeralKernel.store8 a v : Kern σ _) :=
  fun _ => (returns_store8.mpr rfl).ensures

theorem store32 (a : Ptr) (v : BitVec 32) : KeepsStatics (FeralKernel.store32 a v : Kern σ _) :=
  fun _ => (returns_store32.mpr rfl).ensures

theorem store64 (a : Ptr) (v : BitVec 64) : KeepsStatics (FeralKernel.store64 a v : Kern σ _) :=
  fun _ => (returns_store64.mpr rfl).ensures

end KeepsStatics

end FeralKernel
