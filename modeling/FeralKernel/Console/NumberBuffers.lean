import FeralKernel.Lib.Numerals
import FeralKernel.Lib.MemRegions
import FeralKernel.Console.PrintFmt
import FeralKernel.Console.Draw

/-!
# The buffers that numbers are written to

`KiPrintFmt` and `kern_init` pass the itoa functions local buffers of 21, 22 and 17
characters, and no itoa function is told the size.  Wherever such a buffer lies, the
digits, the swaps and the terminator all go into it: a 64-bit number has at most 20
decimal and 16 hexadecimal digits, and a negative one at most 19 behind its sign.
-/

namespace FeralKernel

open Verif.Program Verif.Bytes Verif.Cells

variable {σ : Type}

/-! ## A buffer as a row -/

/-- The first cells of the buffer hold `l`, and every store has been into the `n` bytes
of the buffer. -/
structure BufferHolds (s : Machine σ) (buf : Ptr) (n : Nat) (l : List (BitVec 8))
    (t : Machine σ) : Prop where
  length : l.length ≤ n
  cells : ∀ k, k < l.length → l[k]? = some (byteAt buf t k)
  stores : Records (StoresBelow buf n) s t

section Buffer

variable {s t : Machine σ} {buf : Ptr} {n : Nat} {l : List (BitVec 8)}

theorem BufferHolds.start (s : Machine σ) (buf : Ptr) (n : Nat) : BufferHolds s buf n [] s :=
  ⟨Nat.zero_le _, fun _ hk => absurd hk (Nat.not_lt_zero _), Records.refl _ s⟩

/-- A store into one cell of a buffer. -/
theorem byteAt_store (hn : n ≤ 2 ^ 32) {i k : Nat} (hi : i < n) (hk : k < n) (v : BitVec 8) :
    byteAt buf ((t.setMem (write8 t.mem (phys (buf + BitVec.ofNat 64 i)) v)).note
      (.write (buf + BitVec.ofNat 64 i) 1)) k = if i = k then v else byteAt buf t k := by
  show write8 t.mem (phys (buf + BitVec.ofNat 64 i)) v (phys (buf + BitVec.ofNat 64 k)) = _
  by_cases he : i = k
  · rw [if_pos he, he, write8_same]
  · rw [if_neg he, write8_outside]
    · rfl
    · exact fun hc => he (physAt_inj (by omega) (by omega) hc.symm)

theorem BufferHolds.store (h : BufferHolds s buf n l t) {i : Nat} (hi : i < n) (v : BitVec 8) :
    Records (StoresBelow buf n) s
      ((t.setMem (write8 t.mem (phys (buf + BitVec.ofNat 64 i)) v)).note
        (.write (buf + BitVec.ofNat 64 i) 1)) :=
  h.stores.note (e := .write (buf + BitVec.ofNat 64 i) 1) ⟨i, hi, rfl⟩ rfl

/-- The two images of a byte are far apart, so no two cells of a buffer meet. -/
theorem bufferRow (hn : n ≤ 2 ^ 32) :
    Row (fun k => load8 (buf + k)) (fun k v => store8 (buf + k) v) n (BufferHolds s buf n) where
  get l t i hi h := by
    have hcell := h.cells i hi
    rw [List.getElem?_eq_getElem hi] at hcell
    rw [returns_load8]
    exact ⟨(Option.some.inj hcell).symm, h.length, h.cells,
      h.stores.note (e := .read (buf + BitVec.ofNat 64 i) 1) trivial rfl⟩
  set l t i v hi h := by
    have hlen := h.length
    rw [returns_store8]
    refine ⟨by rw [List.length_set]; exact hlen, fun k hk => ?_, h.store (by omega) v⟩
    rw [List.length_set] at hk
    rw [List.getElem?_set, byteAt_store hn (by omega) (by omega), h.cells k hk]
    by_cases he : i = k
    · rw [if_pos he, if_pos he, if_pos hi]
    · rw [if_neg he, if_neg he]
  push l t v hl h := by
    rw [returns_store8]
    refine ⟨by rw [List.length_append]; exact hl, fun k hk => ?_, h.store hl v⟩
    rw [List.length_append, List.length_singleton] at hk
    rw [byteAt_store hn hl (by omega)]
    by_cases he : l.length = k
    · rw [if_pos he, ← he, List.getElem?_concat_length]
    · rw [if_neg he, List.getElem?_append_left (by omega), h.cells k (by omega)]

theorem BufferHolds.terminated (h : BufferHolds s buf n (l ++ [0]) t)
    (hvisible : ∀ c ∈ l, c ≠ 0) : Terminated (byteAt buf t) l := by
  have hlen : (l ++ [(0 : BitVec 8)]).length = l.length + 1 := by simp
  refine ⟨fun k hk => ?_, ?_, hvisible⟩
  · rw [← h.cells k (by omega), List.getElem?_append_left hk]
  · have hlast := h.cells l.length (by omega)
    rw [List.getElem?_concat_length] at hlast
    exact (Option.some.inj hlast).symm

/-! ## The itoa functions -/

/-- The call returns with a text in the buffer that has room there with its terminator,
and has stored into no byte outside it. -/
def WritesInside (buf : Ptr) (n : Nat) (x : Kern σ FeralStatus) (s : Machine σ) : Prop :=
  Returns x s fun status t => status = .success ∧ Records (StoresBelow buf n) s t ∧
    ∃ text, Terminated (byteAt buf t) text ∧ text.length + 1 ≤ n

theorem BufferHolds.inside (h : BufferHolds s buf n (l ++ [0]) t) (hvisible : ∀ c ∈ l, c ≠ 0) :
    Records (StoresBelow buf n) s t ∧
      ∃ text, Terminated (byteAt buf t) text ∧ text.length + 1 ≤ n := by
  have hlen := h.length
  rw [List.length_append, List.length_singleton] at hlen
  exact ⟨h.stores, l, h.terminated hvisible, hlen⟩

theorem kiItoaSigned_inside {val : BitVec 64} (hn : n ≤ 2 ^ 32)
    (hroom : (signedNumeral val.toInt).length < n) :
    WritesInside buf n (kiItoaSigned val buf) s := by
  rw [WritesInside, kiItoaSigned]
  apply (internalSignedItoa_fills (bufferRow hn) hroom (BufferHolds.start s buf n)).bind
  intro _ t ht
  rw [returns_pure]
  exact ⟨rfl, ht.inside (signedNumeral_visible _)⟩

theorem kiItoaBase_inside {val : BitVec 64} {base : BitVec 8} (h1 : 1 < base.toNat)
    (h2 : base.toNat ≤ 35) (hn : n ≤ 2 ^ 32)
    (hroom : (numeral base.toNat val.toNat).length < n) :
    WritesInside buf n (kiItoaBase val base buf) s := by
  rw [← encodedNumeral_eq h1 h2] at hroom
  rw [WritesInside, kiItoaBase]
  apply (internalItoaBaseChange_fills (bufferRow hn) h1 hroom (BufferHolds.start s buf n)).bind
  intro _ t ht
  rw [encodedNumeral_eq h1 h2] at ht
  rw [returns_pure]
  exact ⟨rfl, ht.inside (numeral_visible h1 (by omega) _)⟩

theorem kiItoa_inside {val : BitVec 64} (hn : n ≤ 2 ^ 32)
    (hroom : (numeral 10 val.toNat).length < n) : WritesInside buf n (kiItoa val buf) s :=
  kiItoaBase_inside (show 1 < (10 : BitVec 8).toNat by decide) (by decide) hn hroom

/-- Every number fits in the buffer that its caller has for it: the 32-bit and 64-bit
integers of `%i` and `%l`, the unsigned ones of `%u` and `%x`, and the two dimensions of
the framebuffer. -/
theorem itoa_inside_buffers (buf : Ptr) (s : Machine σ) :
    (∀ v : BitVec 32, WritesInside buf 21 (kiItoaSigned (v.signExtend 64) buf) s) ∧
    (∀ v : BitVec 64, WritesInside buf 21 (kiItoaSigned v buf) s) ∧
    (∀ v : BitVec 64, WritesInside buf 22 (kiItoa v buf) s) ∧
    (∀ v : BitVec 64, WritesInside buf 17 (kiItoaBase v 16 buf) s) ∧
    ∀ v : BitVec 32, WritesInside buf 17 (kiItoa (v.setWidth 64) buf) s := by
  have hsigned : ∀ v : BitVec 64, WritesInside buf 21 (kiItoaSigned v buf) s := fun v =>
    kiItoaSigned_inside (by decide) (Nat.lt_succ_of_le (length_signedNumeral_le v))
  refine ⟨fun v => hsigned _, hsigned, fun v => ?_, fun v => ?_, fun v => ?_⟩
  · have hlen : (numeral 10 v.toNat).length ≤ 20 :=
      length_numeral_le (by decide) (by decide) (Nat.lt_trans v.isLt (by decide))
    exact kiItoa_inside (by decide) (by omega)
  · have hlen : (numeral 16 v.toNat).length ≤ 16 :=
      length_numeral_le (by decide) (by decide) (Nat.lt_of_lt_of_le v.isLt (by decide))
    exact kiItoaBase_inside (by decide) (by decide) (by decide) (Nat.lt_succ_of_le hlen)
  · have hlt : (v.setWidth 64).toNat < 10 ^ 10 := by
      have hv := v.isLt
      rw [BitVec.toNat_setWidth]
      omega
    have hlen := length_numeral_le (show 1 < 10 by decide) (by decide) hlt
    exact kiItoa_inside (by decide) (by omega)

end Buffer

end FeralKernel
