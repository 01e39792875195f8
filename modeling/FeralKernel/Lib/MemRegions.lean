import FeralKernel.Lib.MemFuncs

/-!
# Which bytes the memory functions touch

What `KiSetMemoryBytes` and `KiCopyMemory` do to memory, byte by byte and for every
pointer.  A region is the run of pointers from its first byte on, which may lie across
the two halves of the address space.  The main loops round the amount up to a multiple
of four, so the regions are touched exactly only when there is nothing to round.
-/

namespace FeralKernel

open Verif.Program Verif.Bytes

variable {σ : Type}

/-! ## Regions -/

/-- The byte of memory at offset `k` from a pointer. -/
def physAt (a : Ptr) (k : Nat) : Nat := phys (a + BitVec.ofNat 64 k)

def InRegion (a : Ptr) (n x : Nat) : Prop := ∃ k, k < n ∧ x = physAt a k

theorem toNat_offset (a : Ptr) {k : Nat} (hk : k < 2 ^ 64) :
    (a + BitVec.ofNat 64 k).toNat = (a.toNat + k) % 2 ^ 64 := by
  rw [BitVec.toNat_add, BitVec.toNat_ofNat, Nat.mod_eq_of_lt hk]

/-- The two pointers to one byte are 512 GiB apart, so a region below that size has
each of its bytes once. -/
theorem physAt_inj {a : Ptr} {k j : Nat} (hk : k < 2 ^ 32) (hj : j < 2 ^ 32)
    (h : physAt a k = physAt a j) : k = j := by
  have ha := a.isLt
  rw [physAt, physAt, phys, phys, toNat_offset a (by omega), toNat_offset a (by omega)] at h
  split at h <;> split at h <;> omega

theorem setBytes_eq_self {amt : BitVec 64} (h : amt.toNat % 4 = 0) :
    setBytes amt = amt.toNat := by
  rw [setBytes_eq]
  omega

theorem lt_setBytes {amt : BitVec 64} (h : amt.toNat % 4 ≠ 0) : amt.toNat < setBytes amt := by
  rw [setBytes_eq]
  omega

/-! ## What a run has recorded for certain -/

/-- From `s` to `t` the first `n` of the events were recorded. -/
def NotesAll (event : Nat → Event) (n : Nat) (s t : Machine σ) : Prop :=
  ∃ new, t.log = new ++ s.log ∧ ∀ k, k < n → event k ∈ new

namespace NotesAll

variable {event : Nat → Event} {n : Nat} {s t u : Machine σ}

theorem zero (event : Nat → Event) (s : Machine σ) : NotesAll event 0 s s :=
  ⟨[], rfl, fun k hk => absurd hk (Nat.not_lt_zero k)⟩

theorem succ (h : NotesAll event n s t) (more : List Event)
    (hlog : u.log = event n :: (more ++ t.log)) : NotesAll event (n + 1) s u := by
  obtain ⟨new, hnew, hall⟩ := h
  refine ⟨event n :: (more ++ new), ?_, fun k hk => ?_⟩
  · rw [hlog, hnew, List.cons_append, List.append_assoc]
  · by_cases hkn : k = n
    · rw [hkn]
      exact List.mem_cons_self ..
    · exact List.mem_cons_of_mem _ (List.mem_append_right _ (hall k (by omega)))

theorem records {P : Event → Prop} (h : NotesAll event n s t) (hP : Records P s t) {k : Nat}
    (hk : k < n) : P (event k) := by
  obtain ⟨new, hnew, hall⟩ := h
  obtain ⟨new', hnew', hall'⟩ := hP
  rw [hnew] at hnew'
  rw [← List.append_cancel_right hnew'] at hall'
  exact hall' _ (hall k hk)

end NotesAll

/-- The store to the byte at offset `k`. -/
def storeAt (dest : Ptr) (k : Nat) : Event := .write (dest + BitVec.ofNat 64 k) 1

/-- The byte behind a region is not one that may be stored to. -/
theorem not_storesTo_end {dest : Ptr} {n : Nat} (hn : n < 2 ^ 64) :
    ¬ StoresTo dest n (storeAt dest n) := by
  intro h
  obtain ⟨k, hk, he⟩ := h
  injection he with he
  have hoff : BitVec.ofNat 64 n = BitVec.ofNat 64 k := (BitVec.add_right_inj dest).mp he
  have hnat := congrArg BitVec.toNat hoff
  rw [BitVec.toNat_ofNat, BitVec.toNat_ofNat] at hnat
  omega

/-! ## Setting -/

/-- Exactly the `n` bytes from `dest` on are set, and no byte is read. -/
structure SetsExactly (s : Machine σ) (dest : Ptr) (val : BitVec 8) (n : Nat) (t : Machine σ) :
    Prop where
  set : ∀ k, k < n → t.mem (physAt dest k) = val
  frame : ∀ x, ¬ InRegion dest n x → t.mem x = s.mem x
  records : Records (StoresTo dest n) s t

section Set

variable {dest : Ptr} {val : BitVec 8} {amt : BitVec 64} {s t : Machine σ}

theorem SetsExactly.succ {k : Nat} (h : SetsExactly s dest val k t) :
    SetsExactly s dest val (k + 1) (filledByte dest val k t) := by
  refine ⟨fun j hj => ?_, fun x hx => ?_, ?_⟩
  · show write8 t.mem (physAt dest k) val (physAt dest j) = val
    by_cases he : physAt dest j = physAt dest k
    · rw [he, write8_same]
    · have hne : j ≠ k := fun hjk => he (by rw [hjk])
      rw [write8_outside he, h.set j (by omega)]
  · show write8 t.mem (physAt dest k) val x = s.mem x
    have hk : x ≠ physAt dest k := fun he => hx ⟨k, by omega, he⟩
    rw [write8_outside hk, h.frame]
    intro hin
    obtain ⟨j, hj, he⟩ := hin
    exact hx ⟨j, by omega, he⟩
  · refine (h.records.mono ?_).note ⟨k, by omega, rfl⟩ rfl
    intro e he
    obtain ⟨j, hj, he⟩ := he
    exact ⟨j, by omega, he⟩

/-- Every byte of every round is set, whatever the pointer. -/
theorem kiSetMemoryBytes_sets (hamt : amt.toNat ≤ 2 ^ 64 - 4) :
    Returns (kiSetMemoryBytes dest val amt) s fun st t =>
      st = .success ∧ SetsExactly s dest val (setBytes amt) t := by
  apply kiSetMemoryBytes_rule (fun k t => SetsExactly s dest val k t) hamt
  · intro k t _ h
    exact h.succ
  · exact ⟨fun k hk => absurd hk (Nat.not_lt_zero k), fun _ _ => rfl, Records.refl _ s⟩

/-- The stores of all rounds are made. -/
theorem kiSetMemoryBytes_notes (hamt : amt.toNat ≤ 2 ^ 64 - 4) :
    Returns (kiSetMemoryBytes dest val amt) s fun _ t =>
      NotesAll (storeAt dest) (setBytes amt) s t := by
  apply (kiSetMemoryBytes_rule (fun k t => NotesAll (storeAt dest) k s t) hamt ?_
    (NotesAll.zero _ s)).mono
  · intro _ t ht
    exact ht.2
  · intro k t _ h
    exact h.succ [] rfl

theorem kiSetMemoryBytes_exact_iff (hamt : amt.toNat ≤ 2 ^ 64 - 4) :
    (Returns (kiSetMemoryBytes dest val amt) s fun _ t => SetsExactly s dest val amt.toNat t) ↔
      amt.toNat % 4 = 0 := by
  constructor
  · intro h
    by_contra hne
    obtain ⟨_, t, -, hexact, hnotes⟩ := h.and (kiSetMemoryBytes_notes hamt)
    exact not_storesTo_end amt.isLt (hnotes.records hexact.records (lt_setBytes hne))
  · intro h
    apply (kiSetMemoryBytes_sets hamt).mono
    intro _ t ht
    rw [setBytes_eq_self h] at ht
    exact ht.2

end Set

/-! ## Copying -/

/-- The stores to the destination and the loads from either region. -/
def CopiesWithin (dest source : Ptr) (n : Nat) (e : Event) : Prop :=
  StoresTo dest n e ∨ ∃ k, k < n ∧
    (e = .read (source + BitVec.ofNat 64 k) 1 ∨ e = .read (dest + BitVec.ofNat 64 k) 1)

/-- Exactly the `n` bytes from `dest` on are given the bytes of `source`, and no byte
outside the two regions is read. -/
structure CopiesExactly (s : Machine σ) (dest source : Ptr) (n : Nat) (t : Machine σ) :
    Prop where
  copied : ∀ k, k < n → t.mem (physAt dest k) = s.mem (physAt source k)
  frame : ∀ x, ¬ InRegion dest n x → t.mem x = s.mem x
  records : Records (CopiesWithin dest source n) s t

/-- No byte of the source is overwritten before it is read. -/
def ReadFirst (dest source : Ptr) (n : Nat) : Prop :=
  ∀ i j, i < j → j < n → physAt dest i ≠ physAt source j

/-- `k` bytes have been copied, of which the first `n` are told apart. -/
structure CopiedTo (s : Machine σ) (dest source : Ptr) (n k : Nat) (t : Machine σ) : Prop where
  copied : ∀ i, i < k → i < n → t.mem (physAt dest i) = s.mem (physAt source i)
  frame : ∀ x, ¬ InRegion dest k x → t.mem x = s.mem x
  records : Records (CopiesWithin dest source k) s t

section Copy

variable {dest source : Ptr} {amount : BitVec 64} {n : Nat} {s t : Machine σ}

theorem CopiedTo.succ {k : Nat} (h : CopiedTo s dest source n k t)
    (hfirst : ReadFirst dest source n) (hk : k < 2 ^ 32) :
    CopiedTo s dest source n (k + 1) (copiedByte dest source k t) := by
  refine ⟨fun i hi hin => ?_, fun x hx => ?_, ?_⟩
  · show write8 t.mem (physAt dest k) (t.mem (physAt source k)) (physAt dest i) = _
    by_cases hik : i = k
    · rw [hik, write8_same]
      apply h.frame
      intro hover
      obtain ⟨j, hj, he⟩ := hover
      exact hfirst j k hj (by omega) he.symm
    · have hne : physAt dest i ≠ physAt dest k :=
        fun he => hik (physAt_inj (by omega) hk he)
      rw [write8_outside hne, h.copied i (by omega) hin]
  · show write8 t.mem (physAt dest k) _ x = s.mem x
    have hne : x ≠ physAt dest k := fun he => hx ⟨k, by omega, he⟩
    rw [write8_outside hne, h.frame]
    intro hin
    obtain ⟨j, hj, he⟩ := hin
    exact hx ⟨j, by omega, he⟩
  · have hbefore : Records (CopiesWithin dest source (k + 1)) s t := by
      refine h.records.mono ?_
      intro e he
      rcases he with ⟨j, hj, he⟩ | ⟨j, hj, he⟩
      · exact Or.inl ⟨j, by omega, he⟩
      · exact Or.inr ⟨j, by omega, he⟩
    have hread := hbefore.note (u := t.note (.read (source + BitVec.ofNat 64 k) 1))
      (Or.inr ⟨k, by omega, Or.inl rfl⟩) rfl
    exact hread.note (Or.inl ⟨k, by omega, rfl⟩) rfl

/-- The first `n` bytes that are copied arrive as they were. -/
theorem kiCopyMemory_copies (hsource : source ≠ 0) (hdest : dest ≠ 0)
    (hamt : amount.toNat ≤ 2 ^ 32 - 4) (hfirst : ReadFirst dest source n) :
    Returns (kiCopyMemory dest source amount) s fun st t =>
      st = .success ∧ CopiedTo s dest source n (setBytes amount) t := by
  have hset := setBytes_eq amount
  apply kiCopyMemory_rule (fun k t => CopiedTo s dest source n k t) hsource hdest hamt
  · intro k t hk h
    exact h.succ hfirst (by omega)
  · exact ⟨fun i hi => absurd hi (Nat.not_lt_zero i), fun _ _ => rfl, Records.refl _ s⟩

theorem kiCopyMemory_notes (hsource : source ≠ 0) (hdest : dest ≠ 0)
    (hamt : amount.toNat ≤ 2 ^ 32 - 4) :
    Returns (kiCopyMemory dest source amount) s fun _ t =>
      NotesAll (storeAt dest) (setBytes amount) s t := by
  apply (kiCopyMemory_rule (fun k t => NotesAll (storeAt dest) k s t) hsource hdest hamt ?_
    (NotesAll.zero _ s)).mono
  · intro _ t ht
    exact ht.2
  · intro k t _ h
    exact h.succ [.read (source + BitVec.ofNat 64 k) 1] rfl

/-- Two regions with no byte in common. -/
def RegionsApart (dest source : Ptr) (n : Nat) : Prop :=
  ∀ x, ¬ (InRegion dest n x ∧ InRegion source n x)

theorem RegionsApart.readFirst (h : RegionsApart dest source n) : ReadFirst dest source n := by
  intro i j hij hj he
  exact h (physAt source j) ⟨⟨i, by omega, he.symm⟩, ⟨j, hj, rfl⟩⟩

theorem kiCopyMemory_exact_iff (hsource : source ≠ 0) (hdest : dest ≠ 0)
    (hamt : amount.toNat ≤ 2 ^ 32 - 4) (hapart : RegionsApart dest source amount.toNat) :
    (Returns (kiCopyMemory dest source amount) s fun _ t =>
      CopiesExactly s dest source amount.toNat t) ↔ amount.toNat % 4 = 0 := by
  constructor
  · intro h
    by_contra hne
    obtain ⟨_, t, -, hexact, hnotes⟩ := h.and (kiCopyMemory_notes hsource hdest hamt)
    rcases hnotes.records hexact.records (lt_setBytes hne) with hstore | ⟨k, -, hread | hread⟩
    · exact not_storesTo_end amount.isLt hstore
    · cases hread
    · cases hread
  · intro h
    apply (kiCopyMemory_copies hsource hdest hamt hapart.readFirst).mono
    intro _ t ht
    obtain ⟨-, hcopied, hframe, hrec⟩ := ht
    rw [setBytes_eq_self h] at hcopied hframe hrec
    exact ⟨fun k hk => hcopied k hk hk, hframe, hrec⟩

/-- Both functions touch exactly the bytes they are asked for when the amount is a multiple
of four, and never otherwise. -/
theorem memFuncs_exact_iff (dest source : Ptr) (val : BitVec 8) {amount : BitVec 64}
    (hamt : amount.toNat < 2 ^ 32 - 4) (s : Machine σ) :
    ((Returns (kiSetMemoryBytes dest val amount) s fun _ t =>
      SetsExactly s dest val amount.toNat t) ↔ amount.toNat % 4 = 0) ∧
    (source ≠ 0 → dest ≠ 0 → RegionsApart dest source amount.toNat →
      ((Returns (kiCopyMemory dest source amount) s fun _ t =>
        CopiesExactly s dest source amount.toNat t) ↔ amount.toNat % 4 = 0)) := by
  constructor
  · exact kiSetMemoryBytes_exact_iff (by omega)
  · intro hsource hdest hapart
    exact kiCopyMemory_exact_iff hsource hdest (by omega) hapart

/-- Cleared memory with one byte set at 8 KiB + 1. -/
def strayMachine : Machine Unit := { mem := write8 (fun _ => 0) 0x2001 7, log := [], statics := () }

theorem strayMachine_apart : RegionsApart 0x1000 0x2000 1 := by
  intro x hx
  obtain ⟨⟨k, hk, rfl⟩, ⟨j, hj, he⟩⟩ := hx
  obtain rfl : k = 0 := by omega
  obtain rfl : j = 0 := by omega
  revert he
  decide

theorem memFuncs_exact_iff_one :
    ((Returns (kiSetMemoryBytes 0x1000 1 1) strayMachine fun _ t =>
      SetsExactly strayMachine 0x1000 1 1 t) ↔ (1 : BitVec 64).toNat % 4 = 0) ∧
    ((Returns (kiCopyMemory 0x1000 0x2000 1) strayMachine fun _ t =>
      CopiesExactly strayMachine 0x1000 0x2000 1 t) ↔ (1 : BitVec 64).toNat % 4 = 0) := by
  have hamt : (1 : BitVec 64).toNat < 2 ^ 32 - 4 := by decide
  have h := memFuncs_exact_iff 0x1000 0x2000 1 hamt strayMachine
  exact ⟨h.1, h.2 (by decide) (by decide) strayMachine_apart⟩

/-- Setting or copying one byte changes the byte behind it too. -/
theorem strayMachine_next_byte :
    ¬ InRegion 0x1000 1 0x1001 ∧ strayMachine.mem 0x1001 = 0 ∧
    (Returns (kiSetMemoryBytes 0x1000 1 1) strayMachine fun _ t => t.mem 0x1001 = 1) ∧
    Returns (kiCopyMemory 0x1000 0x2000 1) strayMachine fun _ t => t.mem 0x1001 = 7 := by
  refine ⟨?_, by decide, ?_, ?_⟩
  · intro h
    obtain ⟨k, hk, he⟩ := h
    obtain rfl : k = 0 := by omega
    revert he
    decide
  · apply (kiSetMemoryBytes_sets (by decide)).mono
    intro _ t ht
    exact ht.2.set 1 (by decide)
  · have hfirst : ReadFirst 0x1000 0x2000 2 := by
      intro i j hij hj
      obtain rfl : i = 0 := by omega
      obtain rfl : j = 1 := by omega
      decide
    apply (kiCopyMemory_copies (by decide) (by decide) (by decide) hfirst).mono
    intro _ t ht
    have hbyte := ht.2.copied 1 (by decide) (by decide)
    exact hbyte.trans (by decide)

/-! ## Moving down -/

theorem readFirst_of_above {d : Nat} (hdest : Spans dest n) (hsource : Spans source n)
    (habove : phys source = phys dest + d) : ReadFirst dest source n := by
  intro i j hij hj
  rw [physAt, physAt, phys_add hdest (by omega), phys_add hsource hj, habove]
  omega

/-- A source that lies `d` bytes above the destination is moved down whole, however small
`d` is: each byte of it is read before it is overwritten. -/
theorem kiCopyMemory_moves_down {d : Nat} (hdest : dest ≠ 0) (hsource : source ≠ 0)
    (hspan : Spans dest amount.toNat) (hspan' : Spans source amount.toNat)
    (habove : phys source = phys dest + d) (hamt : amount.toNat ≤ 2 ^ 32 - 4) :
    Returns (kiCopyMemory dest source amount) s fun st t =>
      st = .success ∧ ∀ i, i < amount.toNat → t.mem (physAt dest i) = s.mem (physAt source i) := by
  apply (kiCopyMemory_copies hsource hdest hamt (readFirst_of_above hspan hspan' habove)).mono
  intro st t ht
  refine ⟨ht.1, fun i hi => ht.2.copied i ?_ hi⟩
  rw [setBytes_eq]
  omega

/-- One byte down, over the first seven bytes of the text screen. -/
theorem kiCopyMemory_moves_down_screen :
    Returns (kiCopyMemory 0xB8000 (0xB8000 + BitVec.ofNat 64 1) 7) strayMachine fun st t =>
      st = .success ∧ ∀ i, i < (7 : BitVec 64).toNat →
        t.mem (physAt 0xB8000 i) = strayMachine.mem (physAt (0xB8000 + BitVec.ofNat 64 1) i) :=
  kiCopyMemory_moves_down (d := 1) (by decide) (by decide) ⟨by decide, by decide⟩
    ⟨by decide, by decide⟩ (by decide) (by decide)

end Copy

end FeralKernel
