import FeralKernel.Mm.WorstCase

/-!
# The fast path of the heap

`MmKernelMalloc` takes the node that `NextToAllocate` points at, unless that is the last
one.  It marks nodes by the remainder of the size where the worst case counts blocks by the
quotient, and then initialises the node it hands out, which clears the flag it has just set.
So the two paths never reserve the same nodes.
-/

namespace FeralKernel

open Verif.Program Verif.Bytes

/-- The nodes `node 0` to `node len` with the fields `f`, ended by a null link, of which
`NextToAllocate` points at `node k`, not flagged as the last one. -/
structure FastPath (s : Machine MmStatics) (node : Nat → Ptr) (len : Nat)
    (f : Nat → NodeFields) (k : Nat) : Prop where
  space : NodeSpace node len
  linked : WellLinked node len f
  tail : (f len).next = 0
  nodes : ∀ i, i ≤ len → nodeAt s.mem (node i) = f i
  bound : k ≤ len
  notLast : (f k).last = 0
  spans : Spans s.statics.currentState.arenas 32
  above : 48 ≤ s.statics.currentState.arenas.toNat
  attempt : read64 s.mem (phys (Arena.nextToAllocate s.statics.currentState.arenas)) = node k

/-- The nodes from `k` on hold a request of `size` bytes: as many unused ones follow each
other as the worst case asks for. -/
def EnoughUnused (f : Nat → NodeFields) (len k : Nat) (size : BitVec 64) : Prop :=
  ∀ j, k ≤ j → j < k + requiredNodes size → j ≤ len ∧ (f j).used = 0

/-- What both paths should leave: `p` is the area of node `k`, exactly as many nodes from it
on as the worst case asks for are flagged as used, and node `k` records their number. -/
structure ReservesBlocks (f g : Nat → NodeFields) (len k : Nat) (size : BitVec 64) (p : Ptr) :
    Prop where
  block : p = (g k).area
  used : ∀ j, j ≤ len → k ≤ j → j < k + requiredNodes size → (g j).used ≠ 0
  others : ∀ j, j ≤ len → ¬ (k ≤ j ∧ j < k + requiredNodes size) → (g j).used = (f j).used
  count : (g k).chunkIncrement.toNat = requiredNodes size

/-- The fast path reserves what the worst case asks for. -/
def MallocReserves (s : Machine MmStatics) (node : Nat → Ptr) (len : Nat)
    (f : Nat → NodeFields) (k : Nat) (size : BitVec 64) : Prop :=
  Returns (mmKernelMalloc size) s fun p t =>
    ReservesBlocks f (fun j => nodeAt t.mem (node j)) len k size p

/-! ## The code -/

@[simp] theorem marked_previous (f : Nat → NodeFields) (i n j : Nat) :
    (marked f i n j).previous = (f j).previous := by
  rw [marked]
  split <;> rfl

@[simp] theorem marked_nodeIndex (f : Nat → NodeFields) (i n j : Nat) :
    (marked f i n j).nodeIndex = (f j).nodeIndex := by
  rw [marked]
  split <;> rfl

section Loop

variable {σ : Type} {s t : Machine σ} {node : Nat → Ptr} {len k n : Nat} {f : Nat → NodeFields}

/-- The node a round starts from, read through the pointer that the round before left. -/
theorem Listed.deref (h : Listed s node len (marked f k n) t) (hspace : NodeSpace node len)
    (hlinked : WellLinked node len f) (htail : (f len).next = 0) (hk : k ≤ len) {c : Nat}
    (hc : k + c ≤ len + 1) :
    Returns (match (if c = 0 then none else some (Node.next (node (k + c - 1)))) with
      | none => pure (node k)
      | some a => load64 a) t fun v u =>
      v = (if k + c ≤ len then node (k + c) else 0) ∧ Listed s node len (marked f k n) u := by
  cases c with
  | zero =>
    rw [if_pos rfl]
    exact returns_pure.mpr ⟨(if_pos hk).symm, h⟩
  | succ c =>
    rw [if_neg (Nat.succ_ne_zero c)]
    apply (h.load_next hspace (i := k + (c + 1) - 1) (by omega)).mono
    rintro v u ⟨rfl, hu⟩
    refine ⟨?_, hu⟩
    rw [marked_next]
    by_cases hend : k + (c + 1) ≤ len
    · rw [if_pos hend, hlinked.next _ (by omega)]
      rfl
    · rw [if_neg hend, show k + (c + 1) - 1 = len by omega]
      exact htail

/-- The loop of the fast path sets one flag fewer than its bound, or all there are. -/
theorem markAttempt_listed (h : Listed s node len f t) (hspace : NodeSpace node len)
    (hlinked : WellLinked node len f) (htail : (f len).next = 0) (hk : k ≤ len)
    {increment : BitVec 64} (hinc : increment.toNat ≤ 128) :
    Returns (markAttempt (node k) increment) t fun _ u =>
      Listed s node len (marked f k (min (increment.toNat - 1) (len + 1 - k))) u := by
  rw [markAttempt]
  refine returns_iterate (fun m loc u => ∃ c, c ≤ increment.toNat - 1 ∧ k + c ≤ len + 1 ∧
      loc = (if c = 0 then none else some (Node.next (node (k + c - 1))), BitVec.ofNat 64 c) ∧
      m = 128 - c ∧ Listed s node len (marked f k c) u)
    ?_ loopBound 128 _ t (by decide) ⟨0, by omega, by omega, rfl, rfl, by rw [marked_zero]; exact h⟩
  rintro m loc u ⟨c, hc, hkc, rfl, rfl, hu⟩
  dsimp only
  have hcount : BitVec.ofNat 64 c + 1 = BitVec.ofNat 64 (c + 1) := (BitVec.ofNat_add c 1).symm
  have hlt : BitVec.ofNat 64 c + 1 < increment ↔ c + 1 < increment.toNat := by
    rw [hcount, BitVec.lt_def, BitVec.toNat_ofNat, Nat.mod_eq_of_lt (by omega)]
  apply (hu.deref hspace hlinked htail hk hkc).bind
  rintro v u1 ⟨rfl, h1⟩
  by_cases hin : k + c ≤ len
  · rw [if_pos hin]
    by_cases hmore : c + 1 < increment.toNat
    · rw [if_pos ⟨hspace.ne_zero hin, hlt.mpr hmore⟩]
      apply (h1.deref hspace hlinked htail hk hkc).bind
      rintro v u2 ⟨rfl, h2⟩
      rw [if_pos hin]
      apply (h2.store_used hspace hin 1).bind
      intro _ u3 h3
      rw [marked_succ] at h3
      apply (h3.deref hspace hlinked htail hk hkc).bind
      rintro v u4 ⟨rfl, h4⟩
      rw [returns_pure, if_pos hin]
      exact ⟨128 - (c + 1), by omega, c + 1, by omega, by omega, by rw [hcount]; rfl, rfl, h4⟩
    · rw [if_neg (fun hc => hmore (hlt.mp hc.2)), returns_pure,
        show min (increment.toNat - 1) (len + 1 - k) = c by omega]
      exact h1
  · rw [if_neg hin, if_neg (by simp), returns_pure,
      show min (increment.toNat - 1) (len + 1 - k) = c by omega]
    exact h1

end Loop

/-! ## One call -/

/-- `BlockIncrement` of the source. -/
def blockIncrement (size : BitVec 64) : Nat := size.toNat % 128 + 1

theorem toNat_blockIncrement (size : BitVec 64) :
    (size % allocBlockSize + 1).toNat = blockIncrement size := by
  rw [blockIncrement, allocBlockSize, BitVec.toNat_add, BitVec.toNat_umod,
    show (128 : BitVec 64).toNat = 128 from rfl, show (1 : BitVec 64).toNat = 1 from rfl]
  omega

/-- The nodes with the flags set and the count recorded. -/
def counted (f : Nat → NodeFields) (len k : Nat) (size : BitVec 64) : Nat → NodeFields :=
  let g := marked f k (min (blockIncrement size - 1) (len + 1 - k))
  Function.update g k { g k with chunkIncrement := size % allocBlockSize + 1 }

section Counted

variable {f : Nat → NodeFields} {len k : Nat} {size : BitVec 64}

theorem counted_self : counted f len k size k =
    { marked f k (min (blockIncrement size - 1) (len + 1 - k)) k with
      chunkIncrement := size % allocBlockSize + 1 } := Function.update_self ..

@[simp] theorem counted_next (j : Nat) : (counted f len k size j).next = (f j).next :=
  (update_next (by rfl) j).trans (marked_next f k _ j)

@[simp] theorem counted_previous (j : Nat) :
    (counted f len k size j).previous = (f j).previous :=
  (update_previous (by rfl) j).trans (marked_previous f k _ j)

/-- Whose flags are set, before the node that is handed out is initialised. -/
theorem counted_used {j : Nat} (hj : j ≤ len) (hne : j ≠ k) : (counted f len k size j).used =
    if k < j ∧ j < k + size.toNat % 128 then 1 else (f j).used := by
  have hset : k ≤ j ∧ j < k + min (blockIncrement size - 1) (len + 1 - k) ↔
      k < j ∧ j < k + size.toNat % 128 := by
    rw [blockIncrement]
    omega
  rw [counted, Function.update_of_ne hne, marked]
  simp only [hset]
  split <;> rfl

end Counted

section Call

variable {s : Machine MmStatics} {node : Nat → Ptr} {len k : Nat} {f : Nat → NodeFields}

/-- Initialising the node that is handed out.  At the root, whose predecessor is null, the
index comes from wherever the null pointer leads. -/
theorem initializeAttempt {σ : Type} {s t : Machine σ} (h : Listed s node len f t)
    (hspace : NodeSpace node len) (hlinked : WellLinked node len f) (htail : (f len).next = 0)
    (hk : k ≤ len) :
    Returns (do
      let previous ← load64 (Node.previous (node k))
      let next ← load64 (Node.next (node k))
      let index ← load64 (Node.nodeIndex previous)
      internalInitializeNode (node k) previous next (index + 1)
      load64 (Node.area (node k))) t fun p u => ∃ index, p = (initialized f k index k).area ∧
        ∀ j, j ≤ len → nodeAt u.mem (node j) = initialized f k index j := by
  apply (h.load_previous hspace hk).bind
  rintro previous t1 ⟨rfl, h1⟩
  apply (h1.load_next hspace hk).bind
  rintro next t2 ⟨rfl, h2⟩
  rw [returns_bind, returns_load64]
  have h3 := Listed.start (s := t2.note (.read (Node.nodeIndex (f k).previous) 8)) h2.nodes
  apply (internalInitializeNode_listed h3 hspace hlinked hk (fun he => he ▸ htail) _).bind
  intro _ t3 h3
  apply (h3.load_area hspace hk).mono
  rintro p u ⟨rfl, hu⟩
  exact ⟨_, rfl, hu.nodes⟩

/-- The node handed out is initialised last. -/
theorem mmKernelMalloc_fastPath (h : FastPath s node len f k) (size : BitVec 64) :
    Returns (mmKernelMalloc size) s fun p t => ∃ index,
      p = (initialized (counted f len k size) k index k).area ∧
      ∀ j, j ≤ len → nodeAt t.mem (node j) = initialized (counted f len k size) k index j := by
  have hspace := h.space
  have hk := h.bound
  have hinc := toNat_blockIncrement size
  have habove : 48 ≤ (Arena.nextToAllocate s.statics.currentState.arenas).toNat := by
    have hend := h.spans.1
    have hbase := h.above
    rw [Arena.nextToAllocate, BitVec.toNat_add]
    simp only [BitVec.toNat_ofNat]
    omega
  simp only [mmKernelMalloc, returns_bind, returns_getStatics, returns_load64, BitVec.mul_zero,
    BitVec.add_zero, h.attempt, if_pos (hspace.ne_zero hk)]
  have h0 : Listed s node len f (s.note (.read _ 8)) := (Listed.start h.nodes).read _ 8 habove
  apply (h0.load_last hspace hk).mono
  rintro last t1 ⟨rfl, h1⟩
  rw [h.notLast, if_neg (by simp), returns_bind]
  apply (markAttempt_listed h1 hspace h.linked h.tail hk (by rw [hinc, blockIncrement]; omega)).mono
  intro _ t2 h2
  rw [hinc] at h2
  rw [returns_bind]
  apply (h2.store_chunkIncrement hspace hk _).mono
  intro _ t3 h3
  refine initializeAttempt (f := counted f len k size) h3 hspace ?_ (by rw [counted_next]; exact h.tail) hk
  exact h.linked.congr counted_next counted_previous

/-- What the fast path leaves: the flag of the node handed out is clear, the flags of as many
nodes behind it are set as the size leaves when it is divided by the block size, less one, and
the count is that remainder and one more. -/
theorem mmKernelMalloc_reserved (h : FastPath s node len f k) (size : BitVec 64) :
    Returns (mmKernelMalloc size) s fun p t => p = (nodeAt t.mem (node k)).area ∧
      (nodeAt t.mem (node k)).used = 0 ∧
      (nodeAt t.mem (node k)).chunkIncrement.toNat = size.toNat % 128 + 1 ∧
      ∀ j, j ≤ len → j ≠ k → (nodeAt t.mem (node j)).used =
        if k < j ∧ j < k + size.toNat % 128 then 1 else (f j).used := by
  apply (mmKernelMalloc_fastPath h size).mono
  rintro p t ⟨index, hp, hnodes⟩
  rw [hnodes k h.bound]
  refine ⟨hp, initialized_self_used k index, ?_, fun j hj hne => ?_⟩
  · rw [initialized, Function.update_self, counted_self]
    exact toNat_blockIncrement size
  · rw [hnodes j hj, initialized_of_ne hne, counted_used hj hne]

theorem not_reservesBlocks {g : Nat → NodeFields} {size : BitVec 64} {p : Ptr} (hk : k ≤ len)
    (hclear : (g k).used = 0) : ¬ ReservesBlocks f g len k size p := by
  intro hreserves
  have hr := requiredNodes_pos size
  exact hreserves.used k hk (by omega) (by omega) hclear

/-- The two paths never account for the same nodes: the node that the fast path hands out is
left unused, whatever the size and however many nodes are free. -/
theorem mmKernelMalloc_never_reserves (h : FastPath s node len f k) (size : BitVec 64) :
    ¬ MallocReserves s node len f k size := by
  intro hreserves
  obtain ⟨p, t, he, -, hclear, -⟩ := mmKernelMalloc_reserved h size
  exact not_reservesBlocks h.bound hclear (hreserves.of_eq he)

end Call

/-- The three nodes of the small arena, the second of which is to be allocated. -/
def smallHeap : Machine MmStatics where
  mem := write64 smallArena.mem 0x1018 0x2030
  log := []
  statics := { coldMachine.statics with currentState := { arenas := 0x1000 } }

theorem smallHeap_fastPath : FastPath smallHeap smallArenaNode 2
    (fun i => nodeAt smallHeap.mem (smallArenaNode i)) 1 where
  space := smallArena_list.space
  linked := ⟨by decide, by decide, by decide⟩
  tail := by decide
  nodes _ _ := rfl
  bound := by decide
  notLast := by decide
  spans := by unfold Spans; decide
  above := by decide
  attempt := by decide

theorem mmKernelMalloc_never_reserves_small :
    ¬ MallocReserves smallHeap smallArenaNode 2
      (fun i => nodeAt smallHeap.mem (smallArenaNode i)) 1 128 :=
  mmKernelMalloc_never_reserves smallHeap_fastPath 128

/-- One block would do for sixteen bytes, and it is there. -/
theorem smallHeap_not_reserved :
    EnoughUnused (fun i => nodeAt smallHeap.mem (smallArenaNode i)) 2 1 16 ∧
    ¬ MallocReserves smallHeap smallArenaNode 2
      (fun i => nodeAt smallHeap.mem (smallArenaNode i)) 1 16 := by
  constructor
  · intro j h1 h2
    rw [requiredNodes, show (16 : BitVec 64).toNat / 128 + 1 = 1 from rfl] at h2
    rw [show j = 1 by omega]
    decide
  · intro hreserves
    obtain ⟨p, t, he, -, hclear, -⟩ := mmKernelMalloc_reserved smallHeap_fastPath 16
    exact not_reservesBlocks (by decide) hclear (hreserves.of_eq he)

end FeralKernel
