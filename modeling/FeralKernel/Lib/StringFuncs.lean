import FeralKernel.Lib.MemFuncs
import Mathlib.Data.List.GetD
import Mathlib.Data.Nat.Find

/-!
# Strings

`KiGetStringLength` of `kern/lib/kernel_stringfuncs.c`, and what it means for
memory to hold a string.
-/

namespace FeralKernel

open Verif.Program Verif.Bytes

variable {σ : Type}

/-- A character constant.  The source uses ASCII only. -/
def ch (c : Char) : BitVec 8 := BitVec.ofNat 8 c.toNat

/-- The characters of a literal. -/
def chars (text : String) : List (BitVec 8) := text.toList.map ch

/-- The status and what is written to `*Length`. -/
def kiGetStringLength (string : Ptr) : Kern σ (FeralStatus × Option (BitVec 64)) := do
  if string = 0 then pure (.invalidMemoryLocation, none)
  else
    let len ← iterate .hang (fun len : BitVec 64 => do
      let c ← load8 (string + len)
      if c ≠ 0 then pure (.inr (len + 1))
      else pure (.inl len)) loopBound 0
    pure (.success, some len)

/-- `m` holds `text` at `a` with a NUL behind it. -/
structure CString (m : Mem) (a : Ptr) (text : List (BitVec 8)) : Prop where
  nonnull : a ≠ 0
  short : text.length < 2 ^ 64
  bytes : ∀ k, k ≤ text.length → m (phys (a + BitVec.ofNat 64 k)) = text.getD k 0
  visible : ∀ c ∈ text, c ≠ 0

namespace CString

variable {m : Mem} {a : Ptr} {text : List (BitVec 8)}

theorem byte_ne_zero (h : CString m a text) {k : Nat} (hk : k < text.length) :
    m (phys (a + BitVec.ofNat 64 k)) ≠ 0 := by
  rw [h.bytes k (by omega), List.getD_eq_getElem _ _ hk]
  exact h.visible _ (List.getElem_mem hk)

theorem byte_zero (h : CString m a text) :
    m (phys (a + BitVec.ofNat 64 text.length)) = 0 := by
  rw [h.bytes _ (Nat.le_refl _), List.getD_eq_default _ _ (Nat.le_refl _)]

theorem length_le {text' : List (BitVec 8)} (h : CString m a text) (h' : CString m a text') :
    text.length ≤ text'.length := by
  by_contra hlt
  exact h.byte_ne_zero (by omega) h'.byte_zero

/-- There is one string at an address. -/
theorem unique {text' : List (BitVec 8)} (h : CString m a text) (h' : CString m a text') :
    text = text' := by
  have hlen : text.length = text'.length := Nat.le_antisymm (h.length_le h') (h'.length_le h)
  refine List.ext_getElem hlen (fun k hk hk' => ?_)
  rw [← List.getD_eq_getElem _ 0 hk, ← List.getD_eq_getElem _ 0 hk', ← h.bytes k (by omega),
    h'.bytes k (by omega)]

/-- Only the bytes of the string matter. -/
theorem congr {m' : Mem} (h : CString m a text)
    (hm : ∀ k, k ≤ text.length →
      m' (phys (a + BitVec.ofNat 64 k)) = m (phys (a + BitVec.ofNat 64 k))) :
    CString m' a text :=
  ⟨h.nonnull, h.short, fun k hk => (hm k hk).trans (h.bytes k hk), h.visible⟩

end CString

/-- Where there is a NUL there is a string in front of it. -/
theorem CString.exists_of_nul {m : Mem} {a : Ptr} (ha : a ≠ 0) {k : Nat} (hk : k < 2 ^ 64)
    (hnul : m (phys (a + BitVec.ofNat 64 k)) = 0) : ∃ text, CString m a text := by
  have hex : ∃ j, m (phys (a + BitVec.ofNat 64 j)) = 0 := ⟨k, hnul⟩
  have hle : Nat.find hex ≤ k := Nat.find_min' hex hnul
  have hlen : ((List.range (Nat.find hex)).map fun j =>
      m (phys (a + BitVec.ofNat 64 j))).length = Nat.find hex := by
    rw [List.length_map, List.length_range]
  refine ⟨(List.range (Nat.find hex)).map fun j => m (phys (a + BitVec.ofNat 64 j)), ha, ?_,
    fun j hj => ?_, fun c hc => ?_⟩
  · omega
  · rw [hlen] at hj
    by_cases he : j = Nat.find hex
    · rw [he, List.getD_eq_default _ _ (Nat.le_of_eq hlen)]
      exact Nat.find_spec hex
    · rw [List.getD_eq_getElem _ _ (by rw [hlen]; omega), List.getElem_map, List.getElem_range]
  · obtain ⟨j, hj, rfl⟩ := List.mem_map.mp hc
    exact Nat.find_min hex (List.mem_range.mp hj)

/-- A buffer that holds a string and its terminator. -/
theorem cstring_block {m : Mem} {buf : Ptr} {text : List (BitVec 8)} (hbuf : buf ≠ 0)
    (hspan : Spans buf (text.length + 1)) (hvisible : ∀ c ∈ text, c ≠ 0) :
    CString (block m (phys buf) (text ++ [0])) buf text := by
  have hlen : (text ++ [(0 : BitVec 8)]).length = text.length + 1 := by simp
  have hshort := hspan.1
  refine ⟨hbuf, ?_, fun k hk => ?_, hvisible⟩
  · have hpos : 0 < buf.toNat := by
      rw [Nat.pos_iff_ne_zero]
      exact fun h => hbuf (BitVec.eq_of_toNat_eq h)
    omega
  · rw [phys_add hspan (by omega), block_inside _ _ (by omega)]
    by_cases he : k = text.length
    · rw [he, List.getD_eq_default _ _ (Nat.le_refl _), List.getD_append_right _ _ _ _ (by omega)]
      simp
    · rw [List.getD_append _ _ _ _ (by omega)]

/-- A text in a table of texts, each of which has `stride` bytes. -/
theorem cString_slot {m : Mem} {names : List String} (base stride : Nat) (hbase : 0 < base)
    (hend : base + stride * names.length ≤ 2 ^ 60)
    (hm : ∀ i k, i < names.length → k < stride →
      m (base + (stride * i + k)) = (chars (names.getD i "")).getD k 0)
    {name : String} (hname : name ∈ names) (hshort : (chars name).length < stride)
    (hvisible : ∀ c ∈ chars name, c ≠ 0) :
    CString m (BitVec.ofNat 64 (base + stride * names.idxOf name)) (chars name) := by
  have hindex := List.idxOf_lt_length_of_mem hname
  have hfit : stride * names.idxOf name + stride ≤ stride * names.length := by
    rw [← Nat.mul_succ]
    exact Nat.mul_le_mul_left _ hindex
  have hnat : (BitVec.ofNat 64 (base + stride * names.idxOf name)).toNat =
      base + stride * names.idxOf name := by
    rw [BitVec.toNat_ofNat]
    exact Nat.mod_eq_of_lt (by omega)
  refine ⟨fun hnull => ?_, by omega, fun k hk => ?_, hvisible⟩
  · rw [hnull] at hnat
    have hzero : 0 = base + stride * names.idxOf name := hnat
    omega
  · rw [phys_low (by omega) (by omega), hnat, Nat.add_assoc, hm _ _ hindex (by omega),
      List.getD_eq_getElem _ _ hindex, List.getElem_idxOf]

theorem kiGetStringLength_reads {string : Ptr} {text : List (BitVec 8)} {s : Machine σ}
    (h : CString s.mem string text) :
    Returns (kiGetStringLength string) s fun r t =>
      r = (.success, some (BitVec.ofNat 64 text.length)) ∧ t.mem = s.mem ∧ SameSide s t ∧
      Records (LoadsFrom string (text.length + 1)) s t := by
  have hshort := h.short
  rw [kiGetStringLength, if_neg h.nonnull]
  refine Returns.bind (P := fun len t => len = BitVec.ofNat 64 text.length ∧ t.mem = s.mem ∧
    SameSide s t ∧ Records (LoadsFrom string (text.length + 1)) s t) ?_ ?_
  · refine returns_iterate (fun k len t => ∃ i, len = BitVec.ofNat 64 i ∧ i + k = text.length ∧
      t.mem = s.mem ∧ SameSide s t ∧ Records (LoadsFrom string (text.length + 1)) s t)
      ?_ loopBound text.length 0 s ?_ ⟨0, rfl, Nat.zero_add _, rfl, SameSide.refl s, Records.refl _ s⟩
    · intro k len t hI
      obtain ⟨i, rfl, hk, hm, hside, hrec⟩ := hI
      have hread := hrec.note (u := t.note (.read (string + BitVec.ofNat 64 i) 1))
        ⟨i, by omega, rfl⟩ rfl
      rw [returns_bind, returns_load8, hm]
      by_cases hi : i = text.length
      · have hzero : ¬ s.mem (phys (string + BitVec.ofNat 64 i)) ≠ 0 := by
          rw [hi, h.byte_zero]
          exact fun hne => hne rfl
        rw [if_neg hzero, returns_pure]
        exact ⟨by rw [hi], hm, hside, hread⟩
      · rw [if_pos (h.byte_ne_zero (by omega)), returns_pure]
        refine ⟨k - 1, by omega, i + 1, ?_, by omega, hm, hside, hread⟩
        rw [BitVec.ofNat_add]
        rfl
    · rw [loopBound]
      exact hshort
  · intro len t ht
    obtain ⟨rfl, hm, hside⟩ := ht
    rw [returns_pure]
    exact ⟨rfl, hm, hside⟩

theorem kiGetStringLength_spec {string : Ptr} {text : List (BitVec 8)} {s : Machine σ}
    (h : CString s.mem string text) :
    Returns (kiGetStringLength string) s fun r t =>
      r = (.success, some (BitVec.ofNat 64 text.length)) ∧ t.mem = s.mem ∧ SameSide s t := by
  apply (kiGetStringLength_reads h).mono
  intro r t ht
  exact ⟨ht.1, ht.2.1, ht.2.2.1⟩

theorem kiGetStringLength_keeps (string : Ptr) :
    KeepsStatics (kiGetStringLength string : Kern σ _) := by
  rw [kiGetStringLength]
  split
  · exact .pure _
  · refine .bind (.iterate (fun len => ?_) _ _) fun _ => .pure _
    refine .bind (.load8 _) fun c => ?_
    split
    · exact .pure _
    · exact .pure _

end FeralKernel
