import Mathlib.Algebra.Group.Nat.Defs
import Mathlib.Data.List.GetD
import Mathlib.Data.Nat.Basic

/-!
# Little-endian words in byte memory

A memory gives a byte at every address.  `readLE` reads a little-endian number
of any width and `writeLE` stores one.  Both are stated on plain addresses, so
that whether two accesses meet is an inequality between numbers.  `fill` is the
effect of clearing a block, `block` that of storing a list of bytes and `move`
that of moving bytes down.  A `view` counts the bytes from a base.
-/

namespace Verif
namespace Bytes

/-- A byte at every address. -/
abbrev Mem : Type := Nat → BitVec 8

/-- The little-endian number in the `n` bytes from `a`. -/
def readLE (m : Mem) : Nat → Nat → Nat
  | _, 0 => 0
  | a, n + 1 => (m a).toNat + 256 * readLE m (a + 1) n

/-- Store the low `n` bytes of `v` from `a` on. -/
def writeLE (m : Mem) (a n v : Nat) : Mem := fun x =>
  if a ≤ x ∧ x < a + n then BitVec.ofNat 8 (v / 256 ^ (x - a)) else m x

/-- Set the `n` bytes from `a` on to `v`. -/
def fill (m : Mem) (a n : Nat) (v : BitVec 8) : Mem := fun x =>
  if a ≤ x ∧ x < a + n then v else m x

/-- Store the bytes of `l` from `a` on. -/
def block (m : Mem) (a : Nat) (l : List (BitVec 8)) : Mem := fun x =>
  if a ≤ x ∧ x < a + l.length then l.getD (x - a) 0 else m x

/-- Move the `n` bytes from `a + d` on down to `a`. -/
def move (m : Mem) (a d n : Nat) : Mem := fun x =>
  if a ≤ x ∧ x < a + n then m (x + d) else m x

/-- Store the `n` bytes from `b` on once more from `a` on. -/
def copy (m : Mem) (a b n : Nat) : Mem := fun x =>
  if a ≤ x ∧ x < a + n then m (b + (x - a)) else m x

/-- The bytes from `b` on, counted from zero. -/
def view (m : Mem) (b : Nat) : Mem := fun k => m (b + k)

def read16 (m : Mem) (a : Nat) : BitVec 16 := BitVec.ofNat 16 (readLE m a 2)

def read32 (m : Mem) (a : Nat) : BitVec 32 := BitVec.ofNat 32 (readLE m a 4)

def read64 (m : Mem) (a : Nat) : BitVec 64 := BitVec.ofNat 64 (readLE m a 8)

def write8 (m : Mem) (a : Nat) (v : BitVec 8) : Mem := writeLE m a 1 v.toNat

def write16 (m : Mem) (a : Nat) (v : BitVec 16) : Mem := writeLE m a 2 v.toNat

def write32 (m : Mem) (a : Nat) (v : BitVec 32) : Mem := writeLE m a 4 v.toNat

def write64 (m : Mem) (a : Nat) (v : BitVec 64) : Mem := writeLE m a 8 v.toNat

/-! ## Single bytes -/

theorem writeLE_outside {m : Mem} {a n v x : Nat} (h : x < a ∨ a + n ≤ x) :
    writeLE m a n v x = m x := by
  have hn : ¬ (a ≤ x ∧ x < a + n) := by omega
  simp only [writeLE, hn, if_false]

theorem fill_outside {m : Mem} {a n x : Nat} {v : BitVec 8} (h : x < a ∨ a + n ≤ x) :
    fill m a n v x = m x := by
  have hn : ¬ (a ≤ x ∧ x < a + n) := by omega
  simp only [fill, hn, if_false]

theorem fill_inside {m : Mem} {a n x : Nat} {v : BitVec 8} (h : a ≤ x ∧ x < a + n) :
    fill m a n v x = v := by
  simp only [fill, h, and_self, if_true]

@[simp] theorem fill_zero (m : Mem) (a : Nat) (v : BitVec 8) : fill m a 0 v = m := by
  funext x
  exact fill_outside (by omega)

/-- Filling a block and then the block that follows it fills both. -/
theorem fill_append (m : Mem) (a n k : Nat) (v : BitVec 8) :
    fill (fill m a n v) (a + n) k v = fill m a (n + k) v := by
  funext x
  by_cases h : a ≤ x ∧ x < a + (n + k)
  · rw [fill_inside h]
    by_cases hk : a + n ≤ x
    · exact fill_inside ⟨hk, by omega⟩
    · rw [fill_outside (by omega), fill_inside (by omega)]
  · rw [fill_outside (by omega), fill_outside (by omega), fill_outside (by omega)]

theorem write8_same (m : Mem) (a : Nat) (v : BitVec 8) : write8 m a v a = v := by
  simp [write8, writeLE]

theorem write8_eq_fill (m : Mem) (a : Nat) (v : BitVec 8) : write8 m a v = fill m a 1 v := by
  funext x
  by_cases h : a ≤ x ∧ x < a + 1
  · have hx : x = a := by omega
    subst hx
    rw [write8_same, fill_inside h]
  · rw [fill_outside (by omega), write8, writeLE_outside (by omega)]

/-! ## Blocks -/

theorem block_outside {m : Mem} {a x : Nat} {l : List (BitVec 8)} (h : x < a ∨ a + l.length ≤ x) :
    block m a l x = m x := by
  have hn : ¬ (a ≤ x ∧ x < a + l.length) := by omega
  simp only [block, hn, if_false]

theorem block_inside (m : Mem) (a : Nat) {l : List (BitVec 8)} {k : Nat} (hk : k < l.length) :
    block m a l (a + k) = l.getD k 0 := by
  have h : a ≤ a + k ∧ a + k < a + l.length := by omega
  simp only [block, h, and_self, if_true, Nat.add_sub_cancel_left]

@[simp] theorem block_nil (m : Mem) (a : Nat) : block m a [] = m := by
  funext x
  exact block_outside (by simp only [List.length_nil]; omega)

/-- A memory that has the bytes of `l` and is otherwise `m`. -/
theorem eq_block {m m' : Mem} {a : Nat} {l : List (BitVec 8)}
    (hin : ∀ k, k < l.length → m' (a + k) = l.getD k 0)
    (hout : ∀ x, x < a ∨ a + l.length ≤ x → m' x = m x) : m' = block m a l := by
  funext x
  by_cases h : a ≤ x ∧ x < a + l.length
  · obtain ⟨k, rfl⟩ : ∃ k, x = a + k := ⟨x - a, by omega⟩
    rw [hin k (by omega), block_inside _ _ (by omega)]
  · rw [hout x (by omega), block_outside (by omega)]

/-- One more byte behind a block. -/
theorem write8_block (m : Mem) (a : Nat) (l : List (BitVec 8)) (v : BitVec 8) :
    write8 (block m a l) (a + l.length) v = block m a (l ++ [v]) := by
  have hlen : (l ++ [v]).length = l.length + 1 := by simp
  refine eq_block (fun k hk => ?_) (fun x hx => ?_)
  · by_cases he : k = l.length
    · rw [he, write8_same, List.getD_eq_getElem _ _ (by omega)]
      simp
    · rw [write8, writeLE_outside (by omega), block_inside _ _ (by omega),
        List.getD_append _ _ _ _ (by omega)]
  · rw [write8, writeLE_outside (by omega), block_outside (by omega)]

/-- A byte of a block set anew. -/
theorem write8_block_set (m : Mem) (a : Nat) {l : List (BitVec 8)} {i : Nat} (hi : i < l.length)
    (v : BitVec 8) : write8 (block m a l) (a + i) v = block m a (l.set i v) := by
  have hlen : (l.set i v).length = l.length := List.length_set
  refine eq_block (fun k hk => ?_) (fun x hx => ?_)
  · rw [hlen] at hk
    rw [List.getD_eq_getElem?_getD, List.getElem?_set]
    by_cases he : i = k
    · rw [← he, write8_same, if_pos rfl, if_pos hi]
      rfl
    · rw [write8, writeLE_outside (by omega), block_inside _ _ hk, if_neg he,
        List.getD_eq_getElem?_getD]
  · rw [write8, writeLE_outside (by omega), block_outside (by omega)]

/-! ## Moves -/

theorem move_outside {m : Mem} {a d n x : Nat} (h : x < a ∨ a + n ≤ x) : move m a d n x = m x := by
  have hn : ¬ (a ≤ x ∧ x < a + n) := by omega
  simp only [move, hn, if_false]

theorem move_inside {m : Mem} {a d n x : Nat} (h : a ≤ x ∧ x < a + n) :
    move m a d n x = m (x + d) := by
  simp only [move, h, and_self, if_true]

@[simp] theorem move_zero (m : Mem) (a d : Nat) : move m a d 0 = m := by
  funext x
  exact move_outside (by omega)

/-- One more byte: it is read where the move has not been yet. -/
theorem move_succ (m : Mem) (a d n : Nat) :
    write8 (move m a d n) (a + n) (move m a d n (a + n + d)) = move m a d (n + 1) := by
  funext x
  by_cases hx : x = a + n
  · rw [hx, write8_same, move_outside (by omega), move_inside (by omega)]
  · rw [write8, writeLE_outside (by omega)]
    by_cases h : a ≤ x ∧ x < a + n
    · rw [move_inside h, move_inside (by omega)]
    · rw [move_outside (by omega), move_outside (by omega)]

/-! ## Views -/

theorem view_fill (m : Mem) (b k n : Nat) (v : BitVec 8) :
    view (fill m (b + k) n v) b = fill (view m b) k n v := by
  funext x
  show fill m (b + k) n v (b + x) = _
  by_cases hx : k ≤ x ∧ x < k + n
  · rw [fill_inside hx, fill_inside (by omega)]
  · rw [fill_outside (by omega), fill_outside (by omega)]
    rfl

theorem view_write8 (m : Mem) (b k : Nat) (v : BitVec 8) :
    view (write8 m (b + k) v) b = write8 (view m b) k v := by
  rw [write8_eq_fill, write8_eq_fill, view_fill]

theorem view_move (m : Mem) (b d n : Nat) : view (move m b d n) b = move (view m b) 0 d n := by
  funext x
  show move m b d n (b + x) = _
  by_cases hx : x < n
  · rw [move_inside (by omega), move_inside (by omega), Nat.add_assoc]
    rfl
  · rw [move_outside (by omega), move_outside (by omega)]
    rfl

/-! ## Words -/

/-- A read depends only on the bytes it covers. -/
theorem readLE_congr {m m' : Mem} : ∀ {a n : Nat},
    (∀ x, a ≤ x → x < a + n → m x = m' x) → readLE m a n = readLE m' a n := by
  intro a n
  induction n generalizing a with
  | zero => intro _; rfl
  | succ n ih =>
    intro h
    rw [readLE, readLE, h a (by omega) (by omega), ih (fun x h1 h2 => h x (by omega) (by omega))]

/-- Equal bytes at two places read alike. -/
theorem readLE_shift {m m' : Mem} : ∀ {a b n : Nat},
    (∀ k, k < n → m (a + k) = m' (b + k)) → readLE m a n = readLE m' b n := by
  intro a b n
  induction n generalizing a b with
  | zero => intro _; rfl
  | succ n ih =>
    intro h
    have hrest : readLE m (a + 1) n = readLE m' (b + 1) n := by
      apply ih
      intro k hk
      rw [Nat.add_right_comm, Nat.add_assoc, h (k + 1) (by omega), Nat.add_right_comm b,
        Nat.add_assoc b]
    rw [readLE, readLE, hrest, ← Nat.add_zero a, ← Nat.add_zero b, h 0 (by omega)]

/-- Bytes that are the digits of `v` read back as `v`. -/
theorem readLE_digits {m : Mem} : ∀ {n a v : Nat},
    (∀ k, k < n → m (a + k) = BitVec.ofNat 8 (v / 256 ^ k)) →
      readLE m a n = v % 256 ^ n := by
  intro n
  induction n with
  | zero => intro a v _; simp [readLE, Nat.mod_one]
  | succ n ih =>
    intro a v h
    have h0 : (m a).toNat = v % 256 := by
      have := h 0 (by omega)
      simp only [Nat.add_zero, Nat.pow_zero, Nat.div_one] at this
      rw [this]
      simp
    have hrest : readLE m (a + 1) n = v / 256 % 256 ^ n := by
      refine ih (fun k hk => ?_)
      rw [show a + 1 + k = a + (k + 1) by omega, h (k + 1) (by omega), Nat.pow_succ,
        Nat.mul_comm, Nat.div_div_eq_div_mul]
    rw [readLE, h0, hrest, Nat.pow_succ, Nat.mul_comm (256 ^ n) 256, Nat.mod_mul]

theorem readLE_writeLE_same (m : Mem) (a n v : Nat) :
    readLE (writeLE m a n v) a n = v % 256 ^ n := by
  refine readLE_digits (fun k hk => ?_)
  have h : a ≤ a + k ∧ a + k < a + n := by omega
  simp only [writeLE, h, and_self, if_true, Nat.add_sub_cancel_left]

theorem readLE_writeLE_outside {m : Mem} {a b n k v : Nat} (h : b + k ≤ a ∨ a + n ≤ b) :
    readLE (writeLE m a n v) b k = readLE m b k :=
  readLE_congr fun x h1 h2 => writeLE_outside (by omega)

theorem readLE_lt (m : Mem) : ∀ (a n : Nat), readLE m a n < 256 ^ n := by
  intro a n
  induction n generalizing a with
  | zero => exact Nat.one_pos
  | succ n ih =>
    have hbyte := (m a).isLt
    have hrest := ih (a + 1)
    rw [readLE, Nat.pow_succ]
    omega

theorem readLE_zero {m : Mem} : ∀ {n a : Nat},
    (∀ x, a ≤ x → x < a + n → m x = 0) → readLE m a n = 0 := by
  intro n
  induction n with
  | zero => intro a _; rfl
  | succ n ih =>
    intro a h
    rw [readLE, h a (by omega) (by omega), ih (fun x h1 h2 => h x (by omega) (by omega))]
    rfl

@[simp] theorem read16_write16_same (m : Mem) (a : Nat) (v : BitVec 16) :
    read16 (write16 m a v) a = v := by
  apply BitVec.eq_of_toNat_eq
  rw [read16, write16, readLE_writeLE_same]
  have hv := v.isLt
  simp only [BitVec.toNat_ofNat]
  omega

@[simp] theorem read32_write32_same (m : Mem) (a : Nat) (v : BitVec 32) :
    read32 (write32 m a v) a = v := by
  apply BitVec.eq_of_toNat_eq
  rw [read32, write32, readLE_writeLE_same]
  have hv := v.isLt
  simp only [BitVec.toNat_ofNat]
  omega

@[simp] theorem read64_write64_same (m : Mem) (a : Nat) (v : BitVec 64) :
    read64 (write64 m a v) a = v := by
  apply BitVec.eq_of_toNat_eq
  rw [read64, write64, readLE_writeLE_same]
  have hv := v.isLt
  simp only [BitVec.toNat_ofNat]
  omega

theorem read64_shift {m m' : Mem} {a b : Nat} (h : ∀ k, k < 8 → m (a + k) = m' (b + k)) :
    read64 m a = read64 m' b := by
  rw [read64, read64, readLE_shift h]

theorem read32_shift {m m' : Mem} {a b : Nat} (h : ∀ k, k < 4 → m (a + k) = m' (b + k)) :
    read32 m a = read32 m' b := by
  rw [read32, read32, readLE_shift h]

theorem read16_shift {m m' : Mem} {a b : Nat} (h : ∀ k, k < 2 → m (a + k) = m' (b + k)) :
    read16 m a = read16 m' b := by
  rw [read16, read16, readLE_shift h]

theorem read64_congr {m m' : Mem} {a : Nat} (h : ∀ x, a ≤ x → x < a + 8 → m x = m' x) :
    read64 m a = read64 m' a := by
  rw [read64, read64, readLE_congr h]

theorem read32_congr {m m' : Mem} {a : Nat} (h : ∀ x, a ≤ x → x < a + 4 → m x = m' x) :
    read32 m a = read32 m' a := by
  rw [read32, read32, readLE_congr h]

/-- The first byte of a word is its lowest. -/
theorem setWidth_read32 (m : Mem) (a : Nat) : (read32 m a).setWidth 8 = m a := by
  have hbyte := (m a).isLt
  apply BitVec.eq_of_toNat_eq
  rw [read32, BitVec.toNat_setWidth, BitVec.toNat_ofNat, readLE]
  omega

theorem read64_zero {m : Mem} {a : Nat} (h : ∀ x, a ≤ x → x < a + 8 → m x = 0) :
    read64 m a = 0 := by
  rw [read64, readLE_zero h]
  rfl

theorem read32_zero {m : Mem} {a : Nat} (h : ∀ x, a ≤ x → x < a + 4 → m x = 0) :
    read32 m a = 0 := by
  rw [read32, readLE_zero h]
  rfl

/-- A half word stored in a clear word. -/
theorem read64_write32_clear {m : Mem} {a : Nat} (h : ∀ x, a + 4 ≤ x → x < a + 8 → m x = 0)
    (v : BitVec 32) : read64 (write32 m a v) a = v.setWidth 64 := by
  have hv := v.isLt
  have hdigits : readLE (write32 m a v) a 8 = v.toNat % 256 ^ 8 := by
    refine readLE_digits (fun k hk => ?_)
    by_cases hlow : k < 4
    · have hin : a ≤ a + k ∧ a + k < a + 4 := by omega
      simp only [write32, writeLE, hin, and_self, if_true, Nat.add_sub_cancel_left]
    · have hzero : v.toNat / 256 ^ k = 0 := by
        apply Nat.div_eq_of_lt
        calc v.toNat < 256 ^ 4 := hv
          _ ≤ 256 ^ k := Nat.pow_le_pow_right (by omega) (by omega)
      rw [write32, writeLE_outside (by omega), h (a + k) (by omega) (by omega), hzero]
      rfl
  apply BitVec.eq_of_toNat_eq
  rw [read64, hdigits, BitVec.toNat_ofNat, BitVec.toNat_setWidth]
  omega

/-- A word stored over another replaces it. -/
theorem write64_write64_same (m : Mem) (a : Nat) (v w : BitVec 64) :
    write64 (write64 m a v) a w = write64 m a w := by
  funext x
  by_cases h : a ≤ x ∧ x < a + 8
  · simp only [write64, writeLE, h, and_self, if_true]
  · simp only [write64, writeLE, h, if_false]

/-! ## Frame rules -/

theorem write8_outside {m : Mem} {a x : Nat} {v : BitVec 8} (h : x ≠ a) :
    write8 m a v x = m x := writeLE_outside (by omega)

theorem write32_outside {m : Mem} {a x : Nat} {v : BitVec 32} (h : x < a ∨ a + 4 ≤ x) :
    write32 m a v x = m x := writeLE_outside h

theorem write64_outside {m : Mem} {a x : Nat} {v : BitVec 64} (h : x < a ∨ a + 8 ≤ x) :
    write64 m a v x = m x := writeLE_outside h

theorem read16_write16_outside {m : Mem} {a b : Nat} {v : BitVec 16}
    (h : b + 2 ≤ a ∨ a + 2 ≤ b) : read16 (write16 m a v) b = read16 m b := by
  rw [read16, read16]
  exact congrArg _ (readLE_congr fun x h1 h2 => writeLE_outside (by omega))

theorem read16_write8_outside {m : Mem} {a b : Nat} {v : BitVec 8} (h : b + 2 ≤ a ∨ a + 1 ≤ b) :
    read16 (write8 m a v) b = read16 m b := congrArg _ (readLE_writeLE_outside h)

theorem read16_write32_outside {m : Mem} {a b : Nat} {v : BitVec 32}
    (h : b + 2 ≤ a ∨ a + 4 ≤ b) : read16 (write32 m a v) b = read16 m b :=
  congrArg _ (readLE_writeLE_outside h)

theorem read32_write16_outside {m : Mem} {a b : Nat} {v : BitVec 16}
    (h : b + 4 ≤ a ∨ a + 2 ≤ b) : read32 (write16 m a v) b = read32 m b :=
  congrArg _ (readLE_writeLE_outside h)

theorem read64_write64_outside {m : Mem} {a b : Nat} {v : BitVec 64}
    (h : b + 8 ≤ a ∨ a + 8 ≤ b) : read64 (write64 m a v) b = read64 m b :=
  read64_congr fun x h1 h2 => write64_outside (by omega)

theorem read64_write32_outside {m : Mem} {a b : Nat} {v : BitVec 32}
    (h : b + 8 ≤ a ∨ a + 4 ≤ b) : read64 (write32 m a v) b = read64 m b :=
  read64_congr fun x h1 h2 => write32_outside (by omega)

theorem read32_write64_outside {m : Mem} {a b : Nat} {v : BitVec 64}
    (h : b + 4 ≤ a ∨ a + 8 ≤ b) : read32 (write64 m a v) b = read32 m b :=
  read32_congr fun x h1 h2 => write64_outside (by omega)

theorem read32_write32_outside {m : Mem} {a b : Nat} {v : BitVec 32}
    (h : b + 4 ≤ a ∨ a + 4 ≤ b) : read32 (write32 m a v) b = read32 m b :=
  read32_congr fun x h1 h2 => write32_outside (by omega)

theorem read64_fill_outside {m : Mem} {a n b : Nat} {v : BitVec 8}
    (h : b + 8 ≤ a ∨ a + n ≤ b) : read64 (fill m a n v) b = read64 m b :=
  read64_congr fun x h1 h2 => fill_outside (by omega)

theorem read64_fill_inside {m : Mem} {a n b : Nat} (h : a ≤ b ∧ b + 8 ≤ a + n) :
    read64 (fill m a n 0) b = 0 :=
  read64_zero fun x h1 h2 => fill_inside (by omega)

theorem read32_fill_inside {m : Mem} {a n b : Nat} (h : a ≤ b ∧ b + 4 ≤ a + n) :
    read32 (fill m a n 0) b = 0 :=
  read32_zero fun x h1 h2 => fill_inside (by omega)

/-! ## Copies -/

theorem copy_outside {m : Mem} {a b n x : Nat} (h : x < a ∨ a + n ≤ x) : copy m a b n x = m x := by
  have hn : ¬ (a ≤ x ∧ x < a + n) := by omega
  simp only [copy, hn, if_false]

theorem copy_inside (m : Mem) (a b : Nat) {n k : Nat} (hk : k < n) :
    copy m a b n (a + k) = m (b + k) := by
  have h : a ≤ a + k ∧ a + k < a + n := by omega
  simp only [copy, h, and_self, if_true, Nat.add_sub_cancel_left]

@[simp] theorem copy_zero (m : Mem) (a b : Nat) : copy m a b 0 = m := by
  funext x
  exact copy_outside (by omega)

/-- Bytes that are stored where they already stand. -/
theorem copy_self (m : Mem) (a n : Nat) : copy m a a n = m := by
  funext x
  by_cases h : a ≤ x ∧ x < a + n
  · obtain ⟨k, rfl⟩ : ∃ k, x = a + k := ⟨x - a, by omega⟩
    rw [copy_inside _ _ _ (by omega)]
  · rw [copy_outside (by omega)]

/-- A byte of the number that was read. -/
theorem readLE_byte (m : Mem) : ∀ {n a k : Nat}, k < n →
    BitVec.ofNat 8 (readLE m a n / 256 ^ k) = m (a + k) := by
  intro n
  induction n with
  | zero =>
    intro a k hk
    omega
  | succ n ih =>
    intro a k hk
    have hbyte := (m a).isLt
    cases k with
    | zero =>
      apply BitVec.eq_of_toNat_eq
      show (BitVec.ofNat 8 (readLE m a (n + 1) / 256 ^ 0)).toNat = (m a).toNat
      rw [readLE, Nat.pow_zero, Nat.div_one, BitVec.toNat_ofNat, Nat.add_mul_mod_self_left,
        Nat.mod_eq_of_lt hbyte]
    | succ k =>
      have hrest : ((m a).toNat + 256 * readLE m (a + 1) n) / 256 = readLE m (a + 1) n := by omega
      rw [readLE, Nat.pow_succ, Nat.mul_comm (256 ^ k), ← Nat.div_div_eq_div_mul, hrest,
        ih (by omega), Nat.add_assoc, Nat.add_comm 1]

/-- One more word is copied.  It has not been written over when it lies above what has been
written. -/
theorem write64_copy (m : Mem) {a b n : Nat} (h : a ≤ b ∨ b + (n + 8) ≤ a) :
    write64 (copy m a b n) (a + n) (read64 (copy m a b n) (b + n)) = copy m a b (n + 8) := by
  have hread : read64 (copy m a b n) (b + n) = read64 m (b + n) :=
    read64_congr fun x h1 h2 => copy_outside (by omega)
  have hsmall : readLE m (b + n) 8 < 2 ^ 64 := readLE_lt m _ 8
  funext x
  rw [hread, write64, read64, BitVec.toNat_ofNat, Nat.mod_eq_of_lt hsmall]
  by_cases hx : a + n ≤ x ∧ x < a + n + 8
  · obtain ⟨k, rfl⟩ : ∃ k, x = a + n + k := ⟨x - (a + n), by omega⟩
    rw [writeLE, if_pos (by omega), Nat.add_sub_cancel_left, readLE_byte m (by omega),
      Nat.add_assoc a, copy_inside _ _ _ (by omega), Nat.add_assoc]
  · rw [writeLE_outside (by omega)]
    by_cases hin : a ≤ x ∧ x < a + n
    · obtain ⟨k, rfl⟩ : ∃ k, x = a + k := ⟨x - a, by omega⟩
      rw [copy_inside _ _ _ (by omega), copy_inside _ _ _ (by omega)]
    · rw [copy_outside (by omega), copy_outside (by omega)]

end Bytes
end Verif
