import FeralKernel.Machine

/-!
# Setting, copying and comparing memory

`KiSetMemoryBytes`, `KiCopyMemory` and `KiCompareMemory` from
`kern/lib/kernel_memfuncs.c`.  The main loop of each takes four bytes a round, so
it runs up to three bytes past the end when the amount is not a multiple of four,
and the loop behind it then has nothing left to do.
-/

namespace FeralKernel

open Verif.Program Verif.Bytes

variable {σ : Type}

/-- No loop over a 64-bit index can run for longer without repeating itself. -/
def loopBound : Nat := 2 ^ 64

theorem loopBound_eq : loopBound = 2 ^ 64 - 1 + 1 := rfl

def kiSetMemoryBytes (dest : Ptr) (val : BitVec 8) (amt : BitVec 64) : Kern σ FeralStatus := do
  let index ← iterate .hang (fun index : BitVec 64 =>
    if index < amt then do
      store8 (dest + (index + 0)) val
      store8 (dest + (index + 1)) val
      store8 (dest + (index + 2)) val
      store8 (dest + (index + 3)) val
      pure (.inr (index + 4))
    else pure (.inl index)) loopBound 0
  let _ ← iterate .hang (fun index : BitVec 64 =>
    if index < amt then do
      store8 (dest + (index + 0)) val
      pure (.inr (index + 1))
    else pure (.inl index)) loopBound index
  pure .success

def copyByte (dest source : Ptr) (index : BitVec 32) : Kern σ Unit := do
  let c ← load8 (source + index.setWidth 64)
  store8 (dest + index.setWidth 64) c

def kiCopyMemory (dest source : Ptr) (amount : BitVec 64) : Kern σ FeralStatus := do
  if source = 0 ∨ dest = 0 then pure .invalidMemoryLocation
  else
    let index ← iterate .hang (fun index : BitVec 32 =>
      if index.setWidth 64 < amount then do
        copyByte dest source (index + 0)
        copyByte dest source (index + 1)
        copyByte dest source (index + 2)
        copyByte dest source (index + 3)
        pure (.inr (index + 4))
      else pure (.inl index)) loopBound 0
    let _ ← iterate .hang (fun index : BitVec 32 =>
      if index.setWidth 64 < amount then do
        copyByte dest source index
        pure (.inr (index + 1))
      else pure (.inl index)) loopBound index
    pure .success

/-- What `KiCompareMemory` keeps of the bytes at each position of a round. -/
structure Comparisons where
  comparison1 : Bool
  comparison2 : Bool
  comparison3 : Bool
  comparison4 : Bool
deriving DecidableEq

def Comparisons.all (c : Comparisons) : Bool :=
  c.comparison1 && c.comparison2 && c.comparison3 && c.comparison4

/-- The status and what is left in `*Val`, which a call with a null pointer does
not write.  What the first loop stores there is overwritten at the end. -/
def kiCompareMemory (source dest : Ptr) (amount : BitVec 64) :
    Kern σ (FeralStatus × Option Bool) := do
  if source = 0 ∨ dest = 0 then pure (.invalidMemoryLocation, none)
  else
    let _ ← iterate .hang (fun ((i, val) : BitVec 64 × Option Bool) =>
      if i < amount then do
        let src ← load64 (source + i)
        let dst ← load64 (dest + i)
        if src ≠ dst then pure (.inl (some false))
        else pure (.inr (i + 1, some true))
      else pure (.inl val)) loopBound (0, none)
    let (index, c) ← iterate .hang (fun ((index, c) : BitVec 32 × Comparisons) =>
      if index.setWidth 64 < amount then do
        let dst1 ← load8 (dest + (index + 0).setWidth 64)
        let src1 ← load8 (source + (index + 0).setWidth 64)
        let dst2 ← load8 (dest + (index + 1).setWidth 64)
        let src2 ← load8 (source + (index + 1).setWidth 64)
        let dst3 ← load8 (dest + (index + 2).setWidth 64)
        let src3 ← load8 (source + (index + 2).setWidth 64)
        let dst4 ← load8 (dest + (index + 3).setWidth 64)
        let src4 ← load8 (source + (index + 3).setWidth 64)
        pure (.inr (index + 4,
          { comparison1 := c.comparison1 && dst1 == src1
            comparison2 := c.comparison2 && dst2 == src2
            comparison3 := c.comparison3 && dst3 == src3
            comparison4 := c.comparison4 && dst4 == src4 }))
      else pure (.inl (index, c))) loopBound (0, ⟨true, true, true, true⟩)
    let c ← iterate .hang (fun ((index, c) : BitVec 32 × Comparisons) =>
      if index.setWidth 64 < amount then do
        let dst1 ← load8 (dest + (index + 0).setWidth 64)
        let src1 ← load8 (source + (index + 0).setWidth 64)
        pure (.inr (index + 1, { c with comparison1 := c.comparison1 && dst1 == src1 }))
      else pure (.inl c)) loopBound (index, c)
    pure (.success, some c.all)

/-- The bytes that the main loops take, which is the amount rounded up to a
multiple of four. -/
def setBytes (amt : BitVec 64) : Nat := (amt.toNat + 3) / 4 * 4

theorem setBytes_eq (amt : BitVec 64) : setBytes amt = (amt.toNat + 3) / 4 * 4 := rfl

theorem le_setBytes (amt : BitVec 64) : amt.toNat ≤ setBytes amt := by
  rw [setBytes]
  omega

theorem setBytes_le (amt : BitVec 64) : setBytes amt ≤ amt.toNat + 3 := by
  rw [setBytes]
  omega

/-- A run of a memory function changes memory alone. -/
def SameSide (s t : Machine σ) : Prop := t.statics = s.statics ∧ linked t.log = linked s.log

theorem SameSide.refl (s : Machine σ) : SameSide s s := ⟨rfl, rfl⟩

theorem SameSide.trans {s t u : Machine σ} (h : SameSide s t) (h' : SameSide t u) :
    SameSide s u := ⟨h'.1.trans h.1, h'.2.trans h.2⟩

/-- The stores of single bytes to the `n` bytes from `dest` on. -/
def StoresTo (dest : Ptr) (n : Nat) (e : Event) : Prop :=
  ∃ k, k < n ∧ e = .write (dest + BitVec.ofNat 64 k) 1

/-- The loads of single bytes of the `n` from `source` on. -/
def LoadsFrom (source : Ptr) (n : Nat) (e : Event) : Prop :=
  ∃ k, k < n ∧ e = .read (source + BitVec.ofNat 64 k) 1

theorem LoadsFrom.isRead {source : Ptr} {n : Nat} {e : Event} (h : LoadsFrom source n e) :
    IsRead e := by
  obtain ⟨k, -, rfl⟩ := h
  exact ⟨_, _, rfl⟩

/-- The loads and stores of single bytes of a buffer. -/
def AccessesTo (buf : Ptr) (n : Nat) (e : Event) : Prop := LoadsFrom buf n e ∨ StoresTo buf n e

theorem AccessesTo.mono {buf : Ptr} {n n' : Nat} {e : Event} (h : AccessesTo buf n e)
    (hn : n ≤ n') : AccessesTo buf n' e := by
  rcases h with ⟨k, hk, he⟩ | ⟨k, hk, he⟩
  · exact Or.inl ⟨k, by omega, he⟩
  · exact Or.inr ⟨k, by omega, he⟩

/-- The state after one more byte has been set. -/
def filledByte (dest : Ptr) (val : BitVec 8) (k : Nat) (t : Machine σ) : Machine σ :=
  (t.setMem (write8 t.mem (phys (dest + BitVec.ofNat 64 k)) val)).note
    (.write (dest + BitVec.ofNat 64 k) 1)

/-- What each byte takes from `P k` to `P (k + 1)` the whole call takes from `P 0` to the
end of its last round. -/
theorem kiSetMemoryBytes_rule {dest : Ptr} {val : BitVec 8} {amt : BitVec 64} {s : Machine σ}
    (P : Nat → Machine σ → Prop) (hamt : amt.toNat ≤ 2 ^ 64 - 4)
    (hbyte : ∀ k t, k < setBytes amt → P k t → P (k + 1) (filledByte dest val k t)) (hs : P 0 s) :
    Returns (kiSetMemoryBytes dest val amt) s fun st t => st = .success ∧ P (setBytes amt) t := by
  have hset := setBytes_eq amt
  have hstore : ∀ k i t, k < setBytes amt → i = BitVec.ofNat 64 k → P k t →
      Returns (store8 (dest + i) val) t fun _ u => P (k + 1) u := by
    intro k i t hk hi hP
    rw [returns_store8, hi]
    exact hbyte k t hk hP
  have hstep : ∀ i j : Nat, BitVec.ofNat 64 i + BitVec.ofNat 64 j = BitVec.ofNat 64 (i + j) := by
    intro i j
    exact (BitVec.ofNat_add i j).symm
  rw [kiSetMemoryBytes]
  refine Returns.bind (P := fun index t => index = BitVec.ofNat 64 (setBytes amt) ∧
      P (setBytes amt) t) ?_ ?_
  · -- after `i` rounds the index is `4 * i` and as many bytes are set
    refine returns_iterate (fun k index t => ∃ i, index = BitVec.ofNat 64 (4 * i) ∧
      i + k = (amt.toNat + 3) / 4 ∧ P (4 * i) t)
      ?_ loopBound ((amt.toNat + 3) / 4) 0 s ?_ ⟨0, rfl, by omega, hs⟩
    · intro k index t hI
      obtain ⟨i, rfl, hk, hP⟩ := hI
      have hidx : (BitVec.ofNat 64 (4 * i)).toNat = 4 * i := by
        rw [BitVec.toNat_ofNat]
        omega
      by_cases hlt : BitVec.ofNat 64 (4 * i) < amt
      · rw [if_pos hlt]
        rw [BitVec.lt_def, hidx] at hlt
        apply (hstore (4 * i) _ t (by omega) (hstep (4 * i) 0) hP).bind
        intro _ t1 h1
        apply (hstore (4 * i + 1) _ t1 (by omega) (hstep (4 * i) 1) h1).bind
        intro _ t2 h2
        apply (hstore (4 * i + 2) _ t2 (by omega) (hstep (4 * i) 2) h2).bind
        intro _ t3 h3
        apply (hstore (4 * i + 3) _ t3 (by omega) (hstep (4 * i) 3) h3).bind
        intro _ t4 h4
        rw [returns_pure]
        exact ⟨k - 1, by omega, i + 1, hstep (4 * i) 4, by omega, h4⟩
      · rw [BitVec.lt_def, hidx] at hlt
        have hi : 4 * i = setBytes amt := by omega
        rw [if_neg (by rw [BitVec.lt_def, hidx]; exact hlt), returns_pure, hi]
        rw [hi] at hP
        exact ⟨rfl, hP⟩
    · rw [loopBound]
      omega
  · intro index t h
    obtain ⟨rfl, hP⟩ := h
    have hdone : ¬ BitVec.ofNat 64 (setBytes amt) < amt := by
      rw [BitVec.lt_def, BitVec.toNat_ofNat]
      omega
    rw [loopBound_eq, returns_bind]
    refine returns_iterate_done (BitVec.ofNat 64 (setBytes amt)) ?_ _ ?_
    · exact if_neg hdone
    · rw [returns_pure]
      exact ⟨rfl, hP⟩

theorem kiSetMemoryBytes_records {dest : Ptr} {val : BitVec 8} {amt : BitVec 64} {s : Machine σ}
    (hspan : Spans dest (setBytes amt)) (hamt : amt.toNat ≤ 2 ^ 64 - 4) :
    Returns (kiSetMemoryBytes dest val amt) s fun st t =>
      st = .success ∧ t.mem = fill s.mem (phys dest) (setBytes amt) val ∧ SameSide s t ∧
      Records (StoresTo dest (setBytes amt)) s t := by
  apply kiSetMemoryBytes_rule (fun k t => t.mem = fill s.mem (phys dest) k val ∧ SameSide s t ∧
    Records (StoresTo dest (setBytes amt)) s t) hamt
  · intro k t hk hP
    obtain ⟨hm, hside, hrec⟩ := hP
    refine ⟨?_, hside, hrec.note ⟨k, hk, rfl⟩ rfl⟩
    show write8 t.mem (phys (dest + BitVec.ofNat 64 k)) val = _
    rw [phys_add hspan hk, hm, write8_eq_fill, fill_append]
  · exact ⟨(fill_zero _ _ _).symm, SameSide.refl s, Records.refl _ s⟩

theorem kiSetMemoryBytes_spec {dest : Ptr} {val : BitVec 8} {amt : BitVec 64} {s : Machine σ}
    (hspan : Spans dest (setBytes amt)) (hamt : amt.toNat ≤ 2 ^ 64 - 4) :
    Returns (kiSetMemoryBytes dest val amt) s fun st t =>
      st = .success ∧ t.mem = fill s.mem (phys dest) (setBytes amt) val ∧ SameSide s t := by
  apply (kiSetMemoryBytes_records hspan hamt).mono
  intro st t ht
  exact ⟨ht.1, ht.2.1, ht.2.2.1⟩

/-- A 32-bit index below the end of the amount, as an offset. -/
theorem setWidth_index {j k : Nat} {i : BitVec 32} (hi : i = BitVec.ofNat 32 k) (h : j + k < 2 ^ 32) :
    (i + BitVec.ofNat 32 j).setWidth 64 = BitVec.ofNat 64 (k + j) := by
  apply BitVec.eq_of_toNat_eq
  rw [hi, BitVec.toNat_setWidth, BitVec.toNat_add, BitVec.toNat_ofNat, BitVec.toNat_ofNat,
    BitVec.toNat_ofNat]
  omega

/-- The test of a loop that takes four bytes a round. -/
theorem index_lt_iff {amount : BitVec 64} (hamt : amount.toNat ≤ 2 ^ 32 - 4) {i : Nat}
    (hi : i ≤ (amount.toNat + 3) / 4) :
    (BitVec.ofNat 32 (4 * i)).setWidth 64 < amount ↔ i < (amount.toNat + 3) / 4 := by
  rw [BitVec.lt_def, BitVec.toNat_setWidth, BitVec.toNat_ofNat]
  omega

theorem index_setBytes {amount : BitVec 64} (hamt : amount.toNat ≤ 2 ^ 32 - 4) :
    ¬ (BitVec.ofNat 32 (setBytes amount)).setWidth 64 < amount := by
  rw [setBytes, Nat.mul_comm, index_lt_iff hamt (Nat.le_refl _)]
  exact Nat.lt_irrefl _

theorem index_succ (i : Nat) : BitVec.ofNat 32 (4 * (i + 1)) = BitVec.ofNat 32 (4 * i) + 4 := by
  rw [Nat.mul_add, BitVec.ofNat_add]
  rfl

/-! ## Copying down -/

/-- The loads and stores of a copy of `n` bytes. -/
def CopiesBytes (dest source : Ptr) (n : Nat) (e : Event) : Prop :=
  StoresTo dest n e ∨ ∃ k, k < n ∧ e = .read (source + BitVec.ofNat 64 k) 1

section Copy

variable {dest : Ptr} {d n : Nat} {m : Mem} {s t : Machine σ}

/-- `k` bytes have been moved down by `d`. -/
structure MovedTo (s : Machine σ) (dest : Ptr) (d n k : Nat) (t : Machine σ) : Prop where
  mem : t.mem = move s.mem (phys dest) d k
  side : SameSide s t
  records : Records (CopiesBytes dest (dest + BitVec.ofNat 64 d) n) s t

/-- The state after one more byte has been copied. -/
def copiedByte (dest source : Ptr) (k : Nat) (t : Machine σ) : Machine σ :=
  ((t.note (.read (source + BitVec.ofNat 64 k) 1)).setMem
    (write8 t.mem (phys (dest + BitVec.ofNat 64 k))
      (t.mem (phys (source + BitVec.ofNat 64 k))))).note (.write (dest + BitVec.ofNat 64 k) 1)

theorem returns_copyByte {source : Ptr} {k : Nat} {index : BitVec 32}
    (hindex : index.setWidth 64 = BitVec.ofNat 64 k) {Q : Unit → Machine σ → Prop} :
    Returns (copyByte dest source index) t Q ↔ Q () (copiedByte dest source k t) := by
  simp only [copyByte, returns_bind, returns_load8, returns_store8, hindex]
  rfl

/-- As for setting: what each byte takes from `P k` to `P (k + 1)` the whole call takes from
`P 0` to the end of its last round. -/
theorem kiCopyMemory_rule {source : Ptr} {amount : BitVec 64} (P : Nat → Machine σ → Prop)
    (hsource : source ≠ 0) (hdest : dest ≠ 0) (hamt : amount.toNat ≤ 2 ^ 32 - 4)
    (hbyte : ∀ k t, k < setBytes amount → P k t → P (k + 1) (copiedByte dest source k t))
    (hs : P 0 s) :
    Returns (kiCopyMemory dest source amount) s fun st t =>
      st = .success ∧ P (setBytes amount) t := by
  have hset := setBytes_eq amount
  have hcopy : ∀ k index t, k < setBytes amount → index.setWidth 64 = BitVec.ofNat 64 k → P k t →
      Returns (copyByte dest source index) t fun _ u => P (k + 1) u := by
    intro k index t hk hindex hP
    rw [returns_copyByte hindex]
    exact hbyte k t hk hP
  rw [kiCopyMemory, if_neg (fun h => h.elim hsource hdest)]
  refine Returns.bind (P := fun index t => index = BitVec.ofNat 32 (setBytes amount) ∧
    P (setBytes amount) t) ?_ ?_
  · refine returns_iterate (fun k index t => ∃ i, index = BitVec.ofNat 32 (4 * i) ∧
      i + k = (amount.toNat + 3) / 4 ∧ P (4 * i) t)
      ?_ loopBound ((amount.toNat + 3) / 4) 0 s ?_ ⟨0, rfl, by omega, hs⟩
    · intro k index t hI
      obtain ⟨i, rfl, hk, hP⟩ := hI
      have hround := index_lt_iff hamt (i := i) (by omega)
      by_cases hlt : i < (amount.toNat + 3) / 4
      · rw [if_pos (hround.mpr hlt)]
        have h0 := setWidth_index (k := 4 * i) (j := 0) rfl (by omega)
        have h1 := setWidth_index (k := 4 * i) (j := 1) rfl (by omega)
        have h2 := setWidth_index (k := 4 * i) (j := 2) rfl (by omega)
        have h3 := setWidth_index (k := 4 * i) (j := 3) rfl (by omega)
        apply (hcopy (4 * i) _ t (by omega) h0 hP).bind
        intro _ t1 hP1
        apply (hcopy (4 * i + 1) _ t1 (by omega) h1 hP1).bind
        intro _ t2 hP2
        apply (hcopy (4 * i + 2) _ t2 (by omega) h2 hP2).bind
        intro _ t3 hP3
        apply (hcopy (4 * i + 3) _ t3 (by omega) h3 hP3).bind
        intro _ t4 hP4
        rw [returns_pure]
        exact ⟨k - 1, by omega, i + 1, (index_succ i).symm, by omega, hP4⟩
      · rw [if_neg (mt hround.mp hlt), returns_pure]
        have hi : 4 * i = setBytes amount := by omega
        rw [hi] at hP ⊢
        exact ⟨rfl, hP⟩
    · rw [loopBound]
      omega
  · intro index t ht
    obtain ⟨rfl, hP⟩ := ht
    rw [loopBound_eq, returns_bind]
    refine returns_iterate_done (BitVec.ofNat 32 (setBytes amount)) ?_ _ ?_
    · exact if_neg (index_setBytes hamt)
    · rw [returns_pure]
      exact ⟨rfl, hP⟩

theorem copiedByte_movedTo {k : Nat} (h : MovedTo s dest d n k t) (hspan : Spans dest (d + n))
    (hk : k < n) : MovedTo s dest d n (k + 1) (copiedByte dest (dest + BitVec.ofNat 64 d) k t) := by
  have hsource : dest + BitVec.ofNat 64 d + BitVec.ofNat 64 k = dest + BitVec.ofNat 64 (k + d) := by
    rw [BitVec.add_assoc, ← BitVec.ofNat_add, Nat.add_comm d k]
  refine ⟨?_, h.side, ?_⟩
  · show write8 t.mem (phys (dest + BitVec.ofNat 64 k))
      (t.mem (phys (dest + BitVec.ofNat 64 d + BitVec.ofNat 64 k))) = _
    rw [hsource, phys_add hspan (by omega), phys_add hspan (by omega), h.mem, ← Nat.add_assoc,
      move_succ]
  · have hread := h.records.note (u := t.note (.read (dest + BitVec.ofNat 64 d +
      BitVec.ofNat 64 k) 1)) (Or.inr ⟨k, hk, rfl⟩) rfl
    exact hread.note (Or.inl ⟨k, hk, rfl⟩) rfl

/-- Source and destination may overlap, since the source lies above. -/
theorem kiCopyMemory_down {amount : BitVec 64} (hspan : Spans dest (d + setBytes amount))
    (hamt : amount.toNat ≤ 2 ^ 32 - 4)
    (hnull : amount ≠ 0 → dest + BitVec.ofNat 64 d ≠ 0 ∧ dest ≠ 0) :
    Returns (kiCopyMemory dest (dest + BitVec.ofNat 64 d) amount) s fun _ t =>
      MovedTo s dest d (setBytes amount) (setBytes amount) t := by
  have hstart : MovedTo s dest d (setBytes amount) 0 s :=
    ⟨(move_zero _ _ _).symm, SameSide.refl s, Records.refl _ s⟩
  by_cases hz : dest + BitVec.ofNat 64 d = 0 ∨ dest = 0
  · have hzero : amount = 0 := by
      by_contra hne
      obtain ⟨hs, hd⟩ := hnull hne
      exact hz.elim hs hd
    rw [kiCopyMemory, if_pos hz, returns_pure, hzero]
    rw [hzero] at hstart
    exact hstart
  · have hcopy := kiCopyMemory_rule (fun k t => MovedTo s dest d (setBytes amount) k t)
      (fun h => hz (Or.inl h)) (fun h => hz (Or.inr h)) hamt
      (fun k t hk h => copiedByte_movedTo h hspan hk) hstart
    exact hcopy.mono fun _ _ h => h.2

end Copy

/-! ## Comparing -/

/-- The `n` bytes at `source` and at `dest` are the same. -/
def SameBytes (m : Mem) (source dest : Ptr) (n : Nat) : Prop :=
  ∀ k, k < n → m (phys (source + BitVec.ofNat 64 k)) = m (phys (dest + BitVec.ofNat 64 k))

theorem sameBytes_succ {m : Mem} {source dest : Ptr} {n : Nat} :
    SameBytes m source dest (n + 1) ↔ SameBytes m source dest n ∧
      m (phys (source + BitVec.ofNat 64 n)) = m (phys (dest + BitVec.ofNat 64 n)) := by
  constructor
  · intro h
    exact ⟨fun k hk => h k (by omega), h n (by omega)⟩
  · intro h k hk
    by_cases he : k = n
    · rw [he]
      exact h.2
    · exact h.1 k (by omega)

/-- Four more bytes have been compared. -/
theorem sameBytes_round {m : Mem} {source dest : Ptr} {i : Nat} {c : Comparisons}
    (hc : c.all = true ↔ SameBytes m source dest (4 * i)) {src dst : Nat → BitVec 8}
    (hsrc : ∀ j, src j = m (phys (source + BitVec.ofNat 64 (4 * i + j))))
    (hdst : ∀ j, dst j = m (phys (dest + BitVec.ofNat 64 (4 * i + j)))) :
    Comparisons.all
      { comparison1 := c.comparison1 && dst 0 == src 0
        comparison2 := c.comparison2 && dst 1 == src 1
        comparison3 := c.comparison3 && dst 2 == src 2
        comparison4 := c.comparison4 && dst 3 == src 3 } = true ↔
      SameBytes m source dest (4 * (i + 1)) := by
  rw [show 4 * (i + 1) = 4 * i + 0 + 1 + 1 + 1 + 1 by omega, sameBytes_succ, sameBytes_succ,
    sameBytes_succ, sameBytes_succ, Nat.add_zero, ← hc]
  simp only [Comparisons.all, hsrc, hdst, Bool.and_eq_true, beq_iff_eq, Nat.add_zero]
  constructor
  · rintro ⟨⟨⟨⟨c1, e1⟩, c2, e2⟩, c3, e3⟩, c4, e4⟩
    exact ⟨⟨⟨⟨⟨⟨⟨c1, c2⟩, c3⟩, c4⟩, e1.symm⟩, e2.symm⟩, e3.symm⟩, e4.symm⟩
  · rintro ⟨⟨⟨⟨⟨⟨⟨c1, c2⟩, c3⟩, c4⟩, e1⟩, e2⟩, e3⟩, e4⟩
    exact ⟨⟨⟨⟨c1, e1.symm⟩, c2, e2.symm⟩, c3, e3.symm⟩, c4, e4.symm⟩

/-- The first loop only reads. -/
theorem compareWords_spec (source dest : Ptr) (amount : BitVec 64) (s : Machine σ) :
    Returns (iterate .hang (fun ((i, val) : BitVec 64 × Option Bool) =>
      if i < amount then do
        let src ← load64 (source + i)
        let dst ← load64 (dest + i)
        if src ≠ dst then pure (.inl (some false))
        else pure (.inr (i + 1, some true))
      else pure (.inl val)) loopBound (0, none)) s fun _ t => t.mem = s.mem ∧ SameSide s t := by
  have hlt := amount.isLt
  refine returns_iterate (fun k b t => b.1.toNat + k = amount.toNat ∧ t.mem = s.mem ∧ SameSide s t)
    ?_ loopBound amount.toNat (0, none) s ?_ ⟨Nat.zero_add _, rfl, SameSide.refl s⟩
  · intro k b t hI
    obtain ⟨i, val⟩ := b
    obtain ⟨hk, hm, hside⟩ := hI
    dsimp only at hk ⊢
    by_cases hi : i < amount
    · rw [if_pos hi]
      simp only [returns_bind, returns_load64]
      rw [BitVec.lt_def] at hi
      split
      · rw [returns_pure]
        exact ⟨hm, hside⟩
      · rw [returns_pure]
        refine ⟨k - 1, by omega, ?_, hm, hside⟩
        rw [BitVec.toNat_add, show (1 : BitVec 64).toNat = 1 from rfl]
        omega
    · rw [if_neg hi, returns_pure]
      exact ⟨hm, hside⟩
  · rw [loopBound]
    exact hlt

theorem kiCompareMemory_spec {source dest : Ptr} {amount : BitVec 64} {s : Machine σ}
    (hs : source ≠ 0) (hd : dest ≠ 0) (hamt : amount.toNat ≤ 2 ^ 32 - 4) :
    Returns (kiCompareMemory source dest amount) s fun r t =>
      (∃ b, r = (.success, some b) ∧
        (b = true ↔ SameBytes s.mem source dest (setBytes amount))) ∧
      t.mem = s.mem ∧ SameSide s t := by
  have hset := setBytes_eq amount
  have hnull : ¬ (source = 0 ∨ dest = 0) := fun h => h.elim hs hd
  rw [kiCompareMemory, if_neg hnull]
  apply (compareWords_spec source dest amount s).bind
  intro _ t0 h0
  obtain ⟨hm0, hside0⟩ := h0
  refine Returns.bind (P := fun r t => r.1 = BitVec.ofNat 32 (setBytes amount) ∧
      (r.2.all = true ↔ SameBytes s.mem source dest (setBytes amount)) ∧
      t.mem = s.mem ∧ SameSide s t) ?_ ?_
  · -- after `i` rounds the first `4 * i` bytes have been compared
    refine returns_iterate (fun k b t => ∃ i, b.1 = BitVec.ofNat 32 (4 * i) ∧
      i + k = (amount.toNat + 3) / 4 ∧
      (b.2.all = true ↔ SameBytes s.mem source dest (4 * i)) ∧ t.mem = s.mem ∧ SameSide s t)
      ?_ loopBound ((amount.toNat + 3) / 4) _ t0 ?_ ?_
    · intro k b t hI
      obtain ⟨index, c⟩ := b
      obtain ⟨i, hidx, hk, hall, hm, hside⟩ := hI
      dsimp only at hidx hall ⊢
      have hround := index_lt_iff hamt (i := i) (by omega)
      rw [← hidx] at hround
      by_cases hlt : i < (amount.toNat + 3) / 4
      · rw [if_pos (hround.mpr hlt)]
        have h0 := setWidth_index (j := 0) hidx (by omega)
        have h1 := setWidth_index (j := 1) hidx (by omega)
        have h2 := setWidth_index (j := 2) hidx (by omega)
        have h3 := setWidth_index (j := 3) hidx (by omega)
        simp only [returns_bind, returns_load8, returns_pure, Machine.note_mem]
        refine ⟨k - 1, by omega, i + 1, ?_, by omega, ?_, hm, hside⟩
        · rw [hidx, index_succ]
        · rw [show index + 0 = index + BitVec.ofNat 32 0 from rfl,
            show index + 1 = index + BitVec.ofNat 32 1 from rfl,
            show index + 2 = index + BitVec.ofNat 32 2 from rfl,
            show index + 3 = index + BitVec.ofNat 32 3 from rfl, h0, h1, h2, h3, hm]
          exact sameBytes_round hall (fun _ => rfl) (fun _ => rfl)
      · rw [if_neg (mt hround.mp hlt), returns_pure]
        have hi : 4 * i = setBytes amount := by omega
        rw [← hi]
        exact ⟨hidx, hall, hm, hside⟩
    · rw [loopBound]
      omega
    · refine ⟨0, rfl, by omega, ?_, hm0, hside0⟩
      simp [Comparisons.all, SameBytes]
  · intro r t ht
    obtain ⟨index, c⟩ := r
    obtain ⟨hidx, hall, hm, hside⟩ := ht
    dsimp only at hidx hall ⊢
    rw [loopBound_eq, returns_bind, hidx]
    refine returns_iterate_done c ?_ _ ?_
    · exact if_neg (index_setBytes hamt)
    · rw [returns_pure]
      exact ⟨⟨_, rfl, hall⟩, hm, hside⟩

/-! ## The static variables -/

theorem kiSetMemoryBytes_keeps (dest : Ptr) (val : BitVec 8) (amt : BitVec 64) :
    KeepsStatics (kiSetMemoryBytes dest val amt : Kern σ _) := by
  rw [kiSetMemoryBytes]
  apply KeepsStatics.bind
  · apply KeepsStatics.iterate
    intro index
    split
    · exact .bind (.store8 _ _) fun _ => .bind (.store8 _ _) fun _ =>
        .bind (.store8 _ _) fun _ => .bind (.store8 _ _) fun _ => .pure _
    · exact .pure _
  · intro index
    apply KeepsStatics.bind
    · apply KeepsStatics.iterate
      intro index
      split
      · exact .bind (.store8 _ _) fun _ => .pure _
      · exact .pure _
    · intro _
      exact .pure _

theorem copyByte_keeps (dest source : Ptr) (index : BitVec 32) :
    KeepsStatics (copyByte dest source index : Kern σ _) :=
  .bind (.load8 _) fun _ => .store8 _ _

theorem kiCopyMemory_keeps (dest source : Ptr) (amount : BitVec 64) :
    KeepsStatics (kiCopyMemory dest source amount : Kern σ _) := by
  rw [kiCopyMemory]
  split
  · exact .pure _
  · apply KeepsStatics.bind
    · apply KeepsStatics.iterate
      intro index
      split
      · exact .bind (copyByte_keeps _ _ _) fun _ => .bind (copyByte_keeps _ _ _) fun _ =>
          .bind (copyByte_keeps _ _ _) fun _ => .bind (copyByte_keeps _ _ _) fun _ => .pure _
      · exact .pure _
    · intro index
      apply KeepsStatics.bind
      · apply KeepsStatics.iterate
        intro index
        split
        · exact .bind (copyByte_keeps _ _ _) fun _ => .pure _
        · exact .pure _
      · intro _
        exact .pure _

end FeralKernel
