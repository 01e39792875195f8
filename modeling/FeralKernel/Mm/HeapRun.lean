import FeralKernel.Mm.Heap

/-!
# What the heap hands out

`MmCreateAllocatorState` with one arena leaves a root node and, behind it, the
node `NextToAllocate` points at.  `MmKernelMalloc` works on that node and never
moves `NextToAllocate` on, so a call leaves the arena as it found it as far as
the next call can see.  `ArenaReady` is what every call needs and keeps, and from
it every call returns the same address.
-/

namespace FeralKernel

open Verif.Program Verif.Bytes

/-- The arena at `b` as `MmKernelMalloc` finds it: the root at `b + 32` with the
given area, and the node to allocate at `b + 80`. -/
structure ArenaReady (b area : Ptr) (m : Mem) : Prop where
  root : read64 m (phys b + 16) = b + 32#64
  nextToAllocate : read64 m (phys b + 24) = b + 80#64
  rootArea : read64 m (phys b + 40) = area
  rootNext : read64 m (phys b + 64) = 0 ∨ read64 m (phys b + 64) = b + 80#64
  last : read32 m (phys b + 84) = 0
  previous : read64 m (phys b + 104) = b + 32#64
  next : read64 m (phys b + 112) = 0

/-- No call reads the flag `Used` or the count `ChunkIncrement` of the node to
allocate. -/
theorem ArenaReady.congr {b area : Ptr} {m m' : Mem} (h : ArenaReady b area m)
    (hmem : ∀ x, phys b ≤ x → x < phys b + 120 → (x < phys b + 80 ∨ phys b + 84 ≤ x) →
      m' x = m x) : ArenaReady b area m' := by
  have h64 : ∀ k, k + 8 ≤ 80 ∨ 84 ≤ k → k + 8 ≤ 120 →
      read64 m' (phys b + k) = read64 m (phys b + k) := fun k hk hk' =>
    read64_congr fun x h1 h2 => hmem x (by omega) (by omega) (by omega)
  have h32 : read32 m' (phys b + 84) = read32 m (phys b + 84) :=
    read32_congr fun x h1 h2 => hmem x (by omega) (by omega) (by omega)
  exact
    { root := by rw [h64 16 (by omega) (by omega)]; exact h.root
      nextToAllocate := by rw [h64 24 (by omega) (by omega)]; exact h.nextToAllocate
      rootArea := by rw [h64 40 (by omega) (by omega)]; exact h.rootArea
      rootNext := by rw [h64 64 (by omega) (by omega)]; exact h.rootNext
      last := by rw [h32]; exact h.last
      previous := by rw [h64 104 (by omega) (by omega)]; exact h.previous
      next := by rw [h64 112 (by omega) (by omega)]; exact h.next }

/-! ## One call -/

section Call

variable {b area : Ptr} {s : Machine MmStatics}

/-- The loop of the fast path sets at most the flag of the first node, since the
node to allocate has no successor. -/
theorem markAttempt_spec (h : ArenaReady b area s.mem) (hb : Spans b 128) (bi : BitVec 64) :
    Returns (markAttempt (b + 80#64) bi) s fun _ t =>
      (∀ x, x < phys b + 80 ∨ phys b + 84 ≤ x → t.mem x = s.mem x) ∧ SameSide s t := by
  have hused : phys (Node.used (b + 80#64)) = phys b + 80 := by
    rw [Node.used, BitVec.add_zero]
    exact phys_add hb (by omega)
  have hnext : phys (Node.next (b + 80#64)) = phys b + 112 := by
    rw [Node.next, BitVec.add_assoc]
    exact phys_add hb (k := 112) (by omega)
  rw [markAttempt]
  refine returns_iterate (fun k loc t =>
      (k = 1 ∧ loc = (none, 0#64) ∧ t = s) ∨
      (k = 0 ∧ loc = (some (Node.next (b + 80#64)), 1#64) ∧
        (∀ x, x < phys b + 80 ∨ phys b + 84 ≤ x → t.mem x = s.mem x) ∧ SameSide s t))
    ?_ loopBound 1 _ s (by decide) (Or.inl ⟨rfl, rfl, rfl⟩)
  intro k loc t hI
  rcases hI with ⟨hk, hloc, ht⟩ | ⟨hk, hloc, hm, hside⟩
  · subst hk hloc ht
    by_cases hc : b + 80#64 ≠ 0 ∧ 0#64 + 1 < bi
    · simp only [returns_bind, returns_pure, if_pos hc, returns_store32]
      refine ⟨0, by omega, Or.inr ⟨rfl, ?_, ?_, ?_, ?_⟩⟩
      · rfl
      · intro x hx
        exact write32_outside (by rw [hused]; omega)
      · rfl
      · rfl
    · simp only [returns_bind, returns_pure, if_neg hc]
      exact ⟨fun _ _ => trivial, SameSide.refl t⟩
  · subst hk hloc
    have hsame : read64 t.mem (phys b + 112) = read64 s.mem (phys b + 112) :=
      read64_congr fun x h1 h2 => hm x (by omega)
    have hzero : read64 t.mem (phys (Node.next (b + 80#64))) = 0 := by
      rw [hnext, hsame]
      exact h.next
    simp only [returns_bind, returns_load64, hzero, ne_eq, not_true_eq_false, false_and,
      if_false, returns_pure]
    exact ⟨hm, hside⟩

/-- Initialising the node to allocate behind the root gives it the byte after the
root's area, and keeps the arena ready. -/
theorem internalInitializeNode_ready (h : ArenaReady b area s.mem) (hb : Spans b 128)
    (hroot : b + 32#64 ≠ 0) (index : BitVec 64) :
    Returns (internalInitializeNode (b + 80#64) (b + 32#64) 0 index) s fun _ t =>
      read64 t.mem (phys b + 88) = area + 1 ∧ ArenaReady b area t.mem ∧
      (∀ x, x < phys b + 32 ∨ phys b + 128 ≤ x → t.mem x = s.mem x) ∧ SameSide s t := by
  have hp : ∀ k, k < 128 → phys (b + BitVec.ofNat 64 k) = phys b + k := fun k hk => phys_add hb hk
  simp (disch := omega) only [internalInitializeNode, returns_bind, returns_load64, returns_store64,
    returns_store32, Machine.note_mem, Machine.setMem_mem, Node.previous, Node.next, Node.nodeIndex,
    Node.area, Node.used, BitVec.add_assoc, BitVec.reduceAdd, hp, ne_eq, hroot, not_false_eq_true,
    if_true, not_true_eq_false, if_false, read64_write64_outside,
    read64_write32_outside, read64_write64_same, h.rootArea]
  refine ⟨trivial, ?_, ?_, rfl, rfl⟩
  · exact
      { root := by
          simp (disch := omega) only [read64_write64_outside, read64_write32_outside]
          exact h.root
        nextToAllocate := by
          simp (disch := omega) only [read64_write64_outside, read64_write32_outside]
          exact h.nextToAllocate
        rootArea := by
          simp (disch := omega) only [read64_write64_outside, read64_write32_outside]
          exact h.rootArea
        rootNext := by
          right
          simp (disch := omega) only [read64_write64_outside, read64_write64_same]
        last := by
          simp (disch := omega) only [read32_write64_outside, read32_write32_outside]
          exact h.last
        previous := by
          simp (disch := omega) only [read64_write64_outside, read64_write64_same]
        next := by
          simp (disch := omega) only [read64_write64_outside, read64_write64_same] }
  · intro x hx
    simp (disch := omega) only [write64_outside, write32_outside]

/-- Every call returns the byte after the root's area and leaves the arena ready
for the next one. -/
theorem mmKernelMalloc_spec (h : ArenaReady b area s.mem)
    (hs : s.statics.currentState.arenas = b) (hb : Spans b 128) (hroot : b + 32#64 ≠ 0)
    (hnode : b + 80#64 ≠ 0) (size : BitVec 64) :
    Returns (mmKernelMalloc size) s fun p t =>
      p = area + 1 ∧ ArenaReady b area t.mem ∧
      (∀ x, x < phys b + 32 ∨ phys b + 128 ≤ x → t.mem x = s.mem x) ∧ SameSide s t := by
  have hp : ∀ k, k < 128 → phys (b + BitVec.ofNat 64 k) = phys b + k := fun k hk => phys_add hb hk
  have hlast : phys (Node.last (b + 80#64)) = phys b + 84 := by
    rw [Node.last, BitVec.add_assoc]
    exact hp 84 (by omega)
  have harea : phys (Node.area (b + 80#64)) = phys b + 88 := by
    rw [Node.area, BitVec.add_assoc]
    exact hp 88 (by omega)
  simp only [mmKernelMalloc, returns_bind, returns_getStatics, returns_load64, hs,
    Arena.nextToAllocate, BitVec.mul_zero, BitVec.add_zero]
  rw [hp 24 (by omega), h.nextToAllocate, if_pos hnode]
  simp only [returns_bind, returns_load32, Machine.note_mem, hlast, h.last, ne_eq,
    not_true_eq_false, if_false]
  apply (markAttempt_spec (s := (s.note _).note _) h hb _).mono
  intro _ t ht
  obtain ⟨hm, hside⟩ := ht
  have h2 : ArenaReady b area t.mem := h.congr fun x _ _ hx => hm x hx
  simp (disch := omega) only [returns_store64, returns_load64, Machine.note_mem,
    Machine.setMem_mem, Node.chunkIncrement, Node.previous, Node.next, BitVec.add_assoc,
    BitVec.reduceAdd, hp, read64_write64_outside, h2.previous, h2.next]
  refine (@internalInitializeNode_ready b area _ ?_ hb hroot _).mono ?_
  · refine h2.congr fun x _ hx _ => ?_
    exact write64_outside (by omega)
  · intro _ u hu
    obtain ⟨ha, hready, hframe, hside'⟩ := hu
    rw [harea]
    refine ⟨ha, hready, fun x hx => ?_, ?_⟩
    · have h1 : u.mem x = write64 t.mem (phys b + 120) (size % allocBlockSize + 1) x := hframe x hx
      have h2 : t.mem x = s.mem x := hm x (by omega)
      show u.mem x = s.mem x
      rw [h1, write64_outside (by omega), h2]
    · exact ⟨hside'.1.trans hside.1, hside'.2.trans hside.2⟩

end Call

/-! ## Setting the heap up -/

/-- The heap area lies in the window, and the region `MmCreateAllocatorState` sets
aside for nodes holds the two it makes. -/
structure HeapFits (heapArea : Ptr) (heapSize : BitVec 64) : Prop where
  window : InWindow heapArea heapSize.toNat
  nodes : 96 ≤ 8 * (heapSize.toNat / 48 + 1)

/-- `Root->Area`: the nodes have `8 * (HeapSize / 48 + 1)` bytes behind the header. -/
def rootArea (heapArea : Ptr) (heapSize : BitVec 64) : Ptr :=
  kernPhysToVirt heapArea + BitVec.ofNat 64 (40 + 8 * (heapSize.toNat / 48))

section Setup

variable {heapArea : Ptr} {heapSize : BitVec 64}

theorem HeapFits.size (h : HeapFits heapArea heapSize) : 528 ≤ heapSize.toNat := by
  have := h.nodes
  omega

theorem HeapFits.spans (h : HeapFits heapArea heapSize) : Spans (kernPhysToVirt heapArea) 128 :=
  (spans_kernPhysToVirt h.window (by have := h.size; omega)).mono (by have := h.size; omega)

theorem HeapFits.phys (h : HeapFits heapArea heapSize) :
    phys (kernPhysToVirt heapArea) = heapArea.toNat :=
  phys_kernPhysToVirt h.window (by have := h.size; omega)

theorem HeapFits.toNat_add (h : HeapFits heapArea heapSize) {k : Nat} (hk : k < heapSize.toNat) :
    (kernPhysToVirt heapArea + BitVec.ofNat 64 k).toNat =
      heapArea.toNat + 0xFFFFFF8000000000 + k := by
  have hsize := h.size
  have hw := h.window
  rw [InWindow] at hw
  rw [BitVec.toNat_add, BitVec.toNat_ofNat, toNat_kernPhysToVirt h.window (by omega)]
  omega

theorem HeapFits.ne_zero (h : HeapFits heapArea heapSize) {k : Nat} (hk : k < heapSize.toNat) :
    kernPhysToVirt heapArea + BitVec.ofNat 64 k ≠ 0 := by
  intro he
  have hnat := congrArg BitVec.toNat he
  rw [h.toNat_add hk, show (0 : Ptr).toNat = 0 from rfl] at hnat
  omega

theorem rootArea_eq (heapArea : Ptr) (heapSize : BitVec 64) :
    kernPhysToVirt heapArea + 32#64 + 8 * (heapSize / 48#64) + 8 = rootArea heapArea heapSize := by
  have hq : heapSize / 48#64 = BitVec.ofNat 64 (heapSize.toNat / 48) := by
    apply BitVec.eq_of_toNat_eq
    have hlt := heapSize.isLt
    rw [BitVec.toNat_udiv, BitVec.toNat_ofNat, BitVec.toNat_ofNat,
      Nat.mod_eq_of_lt (show 48 < 2 ^ 64 by decide)]
    omega
  rw [rootArea, hq, BitVec.ofNat_add, BitVec.ofNat_mul]
  generalize kernPhysToVirt heapArea = b
  generalize BitVec.ofNat 64 (heapSize.toNat / 48) = q
  show b + 32#64 + 8#64 * q + 8#64 = b + (40#64 + 8#64 * q)
  rw [BitVec.add_assoc b, BitVec.add_assoc b, BitVec.add_right_inj, BitVec.add_comm 32#64,
    BitVec.add_assoc, BitVec.add_comm _ (32#64 + 8#64)]
  rfl

/-- An arena as `MmCreateAllocatorState` leaves it: the header at `arena`, and the root and the
node to allocate behind each other from `root` on. -/
structure ArenaWritten (m : Mem) (arena root area : Ptr) : Prop where
  header : read64 m (phys arena + 16) = root
  nextToAllocate : read64 m (phys arena + 24) = root + 48#64
  rootArea : read64 m (phys root + 8) = area
  rootIndex : read64 m (phys root + 16) = 0
  rootNext : read64 m (phys root + 32) = 0
  last : read32 m (phys root + 52) = 0
  previous : read64 m (phys root + 72) = root
  next : read64 m (phys root + 80) = 0

/-- One arena, with the header at `arena` and the nodes at `root` behind it. -/
theorem initializeArena_written {start arena root : Ptr}
    {numArenas heapAmount nodeSize counter : BitVec 64} {s : Machine MmStatics}
    (harena : start + Arena.byteSize * counter = arena)
    (hroot : arena + Arena.byteSize * numArenas = root) (hspan : Spans arena 32)
    (hspan' : Spans root 96) (hapart : phys arena + 32 ≤ phys root) :
    Returns (initializeArena numArenas heapAmount start nodeSize counter) s fun _ t =>
      ArenaWritten t.mem arena root (root + 8 * nodeSize + 8) ∧
      (∀ x, x < phys arena ∨ phys arena + 32 ≤ x → x < phys root ∨ phys root + 96 ≤ x →
        t.mem x = s.mem x) ∧ SameSide s t := by
  have ha : ∀ k, k < 32 → phys (arena + BitVec.ofNat 64 k) = phys arena + k := fun k hk =>
    phys_add hspan hk
  have hp : ∀ k, k < 96 → phys (root + BitVec.ofNat 64 k) = phys root + k := fun k hk =>
    phys_add hspan' hk
  have hnext : root + Node.size = root + 48#64 := rfl
  have hsz : setBytes Node.size = 48 := rfl
  simp only [initializeArena, harena, hroot, hnext]
  generalize root + 8 * nodeSize + 8 = area
  simp (disch := omega) only [internalInitializeNode, returns_bind, returns_store64,
    returns_store32, Machine.note_mem, Machine.setMem_mem, Node.previous, Node.next,
    Node.nodeIndex, Node.area, Node.used, BitVec.add_assoc, BitVec.reduceAdd, hp, ne_eq,
    not_true_eq_false, if_false]
  apply (kiSetMemoryBytes_spec (hspan'.sub (k := 48) (by decide) (by omega)) (by decide)).mono
  intro _ u hu
  obtain ⟨-, hmu, hside⟩ := hu
  simp only [hp 48 (by omega), hsz, Machine.note_mem, Machine.setMem_mem] at hmu
  simp (disch := omega) only [Arena.size, Arena.threadIndex, Arena.root, Arena.nextToAllocate, ha]
  refine ⟨?_, ?_, hside.1, hside.2⟩
  · exact
      { header := by
          simp (disch := omega) only [read64_write64_outside, read64_write64_same]
        nextToAllocate := by
          simp only [read64_write64_same]
        rootArea := by
          simp (disch := omega) only [read64_write64_outside, hmu, read64_fill_outside,
            read64_write64_same]
        rootIndex := by
          simp (disch := omega) only [read64_write64_outside, hmu, read64_fill_outside,
            read64_write64_same]
        rootNext := by
          simp (disch := omega) only [read64_write64_outside, hmu, read64_fill_outside,
            read64_write64_same]
        last := by
          simp (disch := omega) only [read32_write64_outside, hmu, read32_fill_inside]
        previous := by
          simp (disch := omega) only [read64_write64_outside, read64_write64_same]
        next := by
          simp (disch := omega) only [read64_write64_outside, hmu, read64_fill_inside] }
  · intro x hx hx'
    simp (disch := omega) only [write64_outside, hmu, fill_outside, write32_outside]

/-- One arena, set up at `b`. -/
theorem initializeArena_spec {b : Ptr} {heapAmount nodeSize : BitVec 64} {s : Machine MmStatics}
    (hb : Spans b 128) :
    Returns (initializeArena 1 heapAmount b nodeSize 0) s fun _ t =>
      ArenaReady b (b + 32#64 + 8 * nodeSize + 8) t.mem ∧
      (∀ x, x < phys b ∨ phys b + 128 ≤ x → t.mem x = s.mem x) ∧ SameSide s t := by
  have hroot : phys (b + 32#64) = phys b + 32 := phys_add hb (k := 32) (by omega)
  have harena : b + Arena.byteSize * 0 = b := by simp
  apply (initializeArena_written harena (show b + Arena.byteSize * 1 = b + 32#64 from rfl)
    (hb.mono (by omega)) (hb.sub (k := 32) (by omega) (by omega)) (by omega)).mono
  intro _ t ht
  obtain ⟨hw, hframe, hside⟩ := ht
  refine ⟨?_, fun x hx => hframe x (by omega) (by omega), hside⟩
  have hnode : b + 32#64 + 48#64 = b + 80#64 := BitVec.add_assoc ..
  have hprevious := hw.previous
  rw [hroot] at hprevious
  exact
    { root := hw.header
      nextToAllocate := hw.nextToAllocate.trans hnode
      rootArea := by rw [← hw.rootArea, hroot]
      rootNext := by rw [← hw.rootNext, hroot]; exact Or.inl rfl
      last := by rw [← hw.last, hroot]
      previous := hprevious
      next := by rw [← hw.next, hroot] }

theorem mmCreateAllocatorState_spec {s : Machine MmStatics} (h : HeapFits heapArea heapSize) :
    Returns (mmCreateAllocatorState 1 heapArea heapSize) s fun _ t =>
      ArenaReady (kernPhysToVirt heapArea) (rootArea heapArea heapSize) t.mem ∧
      (∀ x, x < heapArea.toNat ∨ heapArea.toNat + setBytes heapSize ≤ x → t.mem x = s.mem x) ∧
      t.statics = { s.statics with currentState := { arenas := kernPhysToVirt heapArea } } ∧
      linked t.log = linked s.log := by
  have hsize := h.size
  have hw := h.window
  rw [InWindow] at hw
  have hle := le_setBytes heapSize
  have hset := setBytes_le heapSize
  rw [mmCreateAllocatorState]
  apply (kiSetMemoryBytes_spec (h.window.spans.mono (by omega)) (by omega)).bind
  intro _ t ht
  obtain ⟨-, hm, hside⟩ := ht
  have hone : heapSize / 1 = heapSize := by simp
  have hnode : (1 : BitVec 64) * Node.size = 48#64 := rfl
  rw [returns_bind, returns_divide]
  refine ⟨by decide, ?_⟩
  rw [returns_bind, returns_divide, hone, hnode]
  refine ⟨by decide, ?_⟩
  simp only [show (1 : BitVec 64).toNat = 1 from rfl, forRange, returns_bind,
    returns_pure, returns_getStatics, returns_setStatics]
  apply (initializeArena_spec h.spans).mono
  intro _ u hu
  obtain ⟨hready, hframe, hside'⟩ := hu
  rw [rootArea_eq] at hready
  rw [h.phys] at hframe
  refine ⟨hready, fun x hx => ?_, ?_, hside'.2.trans hside.2⟩
  · show u.mem x = s.mem x
    rw [hframe x (by omega), hm, h.window.phys_eq, fill_outside (by omega)]
  · show _ = MmStatics.mk _ s.statics.mmState
    rw [hside'.1, hside.1]

end Setup

/-! ## Runs of allocations -/

def mallocAll : List (BitVec 64) → Kern MmStatics (List Ptr)
  | [] => pure []
  | size :: rest => do
    let p ← mmKernelMalloc size
    let ps ← mallocAll rest
    pure (p :: ps)

/-- The heap set up with one arena, and then a run of allocations. -/
def heapRun (heapArea : Ptr) (heapSize : BitVec 64) (sizes : List (BitVec 64)) :
    Kern MmStatics (List Ptr) := do
  let _ ← mmCreateAllocatorState 1 heapArea heapSize
  mallocAll sizes

/-- The nodes of an arena: the root, the node to allocate and what `Next` leads to. -/
inductive ArenaNode (m : Mem) (arena : Ptr) : Ptr → Prop where
  | root : ArenaNode m arena (read64 m (phys (Arena.root arena)))
  | nextToAllocate : ArenaNode m arena (read64 m (phys (Arena.nextToAllocate arena)))
  | next {n : Ptr} : ArenaNode m arena n → read64 m (phys (Node.next n)) ≠ 0 →
      ArenaNode m arena (read64 m (phys (Node.next n)))

/-- The bytes `[p, p + n)` and `[q, q + k)` do not meet. -/
def Apart (p : Ptr) (n : Nat) (q : Ptr) (k : Nat) : Prop :=
  p.toNat + n ≤ q.toNat ∨ q.toNat + k ≤ p.toNat

/-- What a heap owes to the callers of a run: every block it handed out lies in
the heap area, away from the header and the nodes, and no two blocks meet. -/
structure SoundBlocks (heapArea : Ptr) (heapSize : BitVec 64) (t : Machine MmStatics)
    (blocks : List (Ptr × BitVec 64)) : Prop where
  apart : blocks.Pairwise fun x y => x.1 ≠ 0 → y.1 ≠ 0 → Apart x.1 x.2.toNat y.1 y.2.toNat
  inside : ∀ x ∈ blocks, x.1 ≠ 0 → (kernPhysToVirt heapArea).toNat ≤ x.1.toNat ∧
    x.1.toNat + x.2.toNat ≤ (kernPhysToVirt heapArea).toNat + heapSize.toNat
  header : ∀ x ∈ blocks, x.1 ≠ 0 → Apart x.1 x.2.toNat t.statics.currentState.arenas 32
  nodes : ∀ x ∈ blocks, x.1 ≠ 0 → ∀ n, ArenaNode t.mem t.statics.currentState.arenas n →
    Apart x.1 x.2.toNat n 48

theorem mallocAll_spec {b area : Ptr} (hb : Spans b 128) (hroot : b + 32#64 ≠ 0)
    (hnode : b + 80#64 ≠ 0) : ∀ (sizes : List (BitVec 64)) (s : Machine MmStatics),
    ArenaReady b area s.mem → s.statics.currentState.arenas = b →
      Returns (mallocAll sizes) s fun ps t =>
        ps = sizes.map (fun _ => area + 1) ∧ ArenaReady b area t.mem ∧ SameSide s t := by
  intro sizes
  induction sizes with
  | nil =>
    intro s h hs
    rw [mallocAll, returns_pure]
    exact ⟨rfl, h, SameSide.refl s⟩
  | cons size rest ih =>
    intro s h hs
    rw [mallocAll]
    apply (mmKernelMalloc_spec h hs hb hroot hnode size).bind
    intro p t ht
    obtain ⟨rfl, hready, -, hside⟩ := ht
    apply (ih t hready (by rw [hside.1]; exact hs)).bind
    intro ps u hu
    obtain ⟨rfl, hready', hside'⟩ := hu
    rw [returns_pure]
    exact ⟨rfl, hready', hside.trans hside'⟩

/-- Every call of a run returns the same address. -/
theorem heapRun_spec {heapArea : Ptr} {heapSize : BitVec 64} (h : HeapFits heapArea heapSize)
    (sizes : List (BitVec 64)) (s : Machine MmStatics) :
    Returns (heapRun heapArea heapSize sizes) s fun ps t =>
      ps = sizes.map (fun _ => rootArea heapArea heapSize + 1) ∧
      ArenaReady (kernPhysToVirt heapArea) (rootArea heapArea heapSize) t.mem ∧
      t.statics.currentState.arenas = kernPhysToVirt heapArea := by
  have hsize := h.size
  rw [heapRun]
  apply (mmCreateAllocatorState_spec h).bind
  intro _ t ht
  obtain ⟨hready, -, hstat, -⟩ := ht
  have harenas : t.statics.currentState.arenas = kernPhysToVirt heapArea := by rw [hstat]
  apply (mallocAll_spec h.spans (h.ne_zero (by omega)) (h.ne_zero (by omega)) sizes t hready
    harenas).mono
  intro ps u hu
  obtain ⟨hps, hready', hside⟩ := hu
  exact ⟨hps, hready', by rw [hside.1]; exact harenas⟩

theorem ArenaReady.node {b area n : Ptr} {m : Mem} (h : ArenaReady b area m) (hb : Spans b 128)
    (hn : ArenaNode m b n) : n = b + 32#64 ∨ n = b + 80#64 := by
  induction hn with
  | root =>
    rw [Arena.root, phys_add hb (by omega), h.root]
    exact Or.inl rfl
  | nextToAllocate =>
    rw [Arena.nextToAllocate, phys_add hb (by omega), h.nextToAllocate]
    exact Or.inr rfl
  | next _ hne ih =>
    rcases ih with rfl | rfl
    · rw [Node.next, BitVec.add_assoc] at *
      rw [show phys (b + (32#64 + 32#64)) = phys b + 64 from phys_add hb (k := 64) (by omega)] at *
      rcases h.rootNext with h0 | h0
      · exact absurd h0 hne
      · exact Or.inr h0
    · rw [Node.next, BitVec.add_assoc] at hne
      rw [show phys (b + (80#64 + 32#64)) = phys b + 112 from
        phys_add hb (k := 112) (by omega)] at hne
      exact absurd h.next hne

/-- The one address a run hands out, as a number. -/
theorem HeapFits.toNat_block {heapArea : Ptr} {heapSize : BitVec 64}
    (h : HeapFits heapArea heapSize) : (rootArea heapArea heapSize + 1).toNat =
      (kernPhysToVirt heapArea).toNat + 41 + 8 * (heapSize.toNat / 48) := by
  have hsize := h.size
  have hw := h.window
  rw [InWindow] at hw
  have hoff : rootArea heapArea heapSize + 1 =
      kernPhysToVirt heapArea + BitVec.ofNat 64 (40 + 8 * (heapSize.toNat / 48) + 1) := by
    rw [rootArea, BitVec.add_assoc, BitVec.ofNat_add _ 1]
    rfl
  rw [hoff, h.toNat_add (by omega), toNat_kernPhysToVirt h.window (by omega)]
  omega

/-- The blocks of a run are sound exactly when there is at most one of them and
it ends inside the heap. -/
theorem soundBlocks_iff {heapArea : Ptr} {heapSize : BitVec 64} {t : Machine MmStatics}
    {sizes : List (BitVec 64)} (h : HeapFits heapArea heapSize)
    (hpos : ∀ z ∈ sizes, 1 ≤ z.toNat)
    (hready : ArenaReady (kernPhysToVirt heapArea) (rootArea heapArea heapSize) t.mem)
    (harenas : t.statics.currentState.arenas = kernPhysToVirt heapArea) :
    SoundBlocks heapArea heapSize t
        (sizes.map fun z => (rootArea heapArea heapSize + 1, z)) ↔
      sizes.length ≤ 1 ∧
        ∀ z ∈ sizes, 41 + 8 * (heapSize.toNat / 48) + z.toNat ≤ heapSize.toNat := by
  have hsize := h.size
  have hnodes := h.nodes
  have hp := h.toNat_block
  have hb := toNat_kernPhysToVirt h.window (by omega)
  have hne : rootArea heapArea heapSize + 1 ≠ 0 := by
    intro he
    have hzero := congrArg BitVec.toNat he
    rw [hp, show (0 : Ptr).toNat = 0 from rfl] at hzero
    omega
  constructor
  · intro hsound
    refine ⟨?_, fun z hz => ?_⟩
    · match sizes, hpos, hsound with
      | [], _, _ => simp
      | [_], _, _ => simp
      | x :: y :: rest, hpos, hsound =>
        -- the first two blocks start at one address
        have hxy := (List.pairwise_cons.mp hsound.apart).1 (rootArea heapArea heapSize + 1, y)
          (by simp) hne hne
        have hx := hpos x (by simp)
        have hy := hpos y (by simp)
        simp only [Apart] at hxy
        omega
    · have hin := (hsound.inside _ (List.mem_map_of_mem hz) hne).2
      simp only [hp] at hin
      omega
  · intro hcond
    obtain ⟨hlen, hfit⟩ := hcond
    have hmem : ∀ x ∈ sizes.map (fun z => (rootArea heapArea heapSize + 1, z)),
        x.1 = rootArea heapArea heapSize + 1 ∧
          41 + 8 * (heapSize.toNat / 48) + x.2.toNat ≤ heapSize.toNat := by
      intro x hx
      obtain ⟨z, hz, rfl⟩ := List.mem_map.mp hx
      exact ⟨rfl, hfit z hz⟩
    refine ⟨?_, fun x hx _ => ?_, fun x hx _ => ?_, fun x hx _ n hn => ?_⟩
    · match sizes, hlen with
      | [], _ => simp
      | [_], _ => simp
    · obtain ⟨h1, h2⟩ := hmem x hx
      rw [h1, hp]
      omega
    · obtain ⟨h1, h2⟩ := hmem x hx
      rw [Apart, h1, hp, harenas]
      omega
    · obtain ⟨h1, h2⟩ := hmem x hx
      rw [harenas] at hn
      have hn' : n.toNat = heapArea.toNat + 0xFFFFFF8000000000 + 32 ∨
          n.toNat = heapArea.toNat + 0xFFFFFF8000000000 + 80 := by
        rcases hready.node h.spans hn with rfl | rfl
        · exact Or.inl (h.toNat_add (by omega))
        · exact Or.inr (h.toNat_add (by omega))
      rw [Apart, h1, hp]
      omega

/-- A run of allocations is sound exactly when it makes at most one, and that one
fits behind the byte after the root's area. -/
theorem heapRun_sound_iff {heapArea : Ptr} {heapSize : BitVec 64}
    (h : HeapFits heapArea heapSize) (sizes : List (BitVec 64))
    (hpos : ∀ z ∈ sizes, 1 ≤ z.toNat) (s : Machine MmStatics) :
    Returns (heapRun heapArea heapSize sizes) s fun ps t =>
      SoundBlocks heapArea heapSize t (ps.zip sizes) ↔
        sizes.length ≤ 1 ∧
          ∀ z ∈ sizes, 41 + 8 * (heapSize.toNat / 48) + z.toNat ≤ heapSize.toNat := by
  apply (heapRun_spec h sizes s).mono
  intro ps t ht
  obtain ⟨rfl, hready, harenas⟩ := ht
  rw [← List.map_prod_right_eq_zip]
  exact soundBlocks_iff h hpos hready harenas

theorem heapFits_eight_mebibytes : HeapFits 0x400000 0x800000 :=
  ⟨by unfold InWindow; decide, by decide⟩

theorem heapRun_sound_iff_one_page :
    Returns (heapRun 0x400000 0x800000 [4096]) coldMachine fun ps t =>
      SoundBlocks 0x400000 0x800000 t (ps.zip [4096]) ↔ [(4096 : BitVec 64)].length ≤ 1 ∧
        ∀ z ∈ [(4096 : BitVec 64)], 41 + 8 * ((0x800000 : BitVec 64).toNat / 48) + z.toNat ≤
          (0x800000 : BitVec 64).toNat :=
  heapRun_sound_iff heapFits_eight_mebibytes [4096] (by simp) coldMachine

/-- Two calls for sixteen bytes each get the same block. -/
theorem heapRun_two_calls_meet :
    Returns (heapRun 0x400000 0x800000 [16, 16]) coldMachine fun ps t =>
      ¬ SoundBlocks 0x400000 0x800000 t (ps.zip [16, 16]) := by
  apply (heapRun_spec heapFits_eight_mebibytes [16, 16] coldMachine).mono
  intro ps t ht
  obtain ⟨rfl, hready, harenas⟩ := ht
  rw [← List.map_prod_right_eq_zip,
    soundBlocks_iff heapFits_eight_mebibytes (by simp) hready harenas]
  intro hcond
  exact absurd hcond.1 (by decide)

end FeralKernel
