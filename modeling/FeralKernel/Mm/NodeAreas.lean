import FeralKernel.Mm.NodeList
import FeralKernel.Mm.Arenas

/-!
# The areas of adjacent nodes

A list of nodes that `InternalInitializeNode` of `kern/mm/heap.c` builds from a root, one node
at the tail after the other.  The links and the numbers are kept up, and so is the distance of
the areas, but `Area` is a `VOID *` and one more is one byte, not one block.
-/

namespace FeralKernel

open Verif.Program Verif.Bytes

variable {σ : Type}

/-! ## Appending -/

/-- `InternalInitializeNode(Current, Tail, NULLPTR, Tail->NodeIndex + 1)`. -/
def appendNode (tail current : Ptr) : Kern σ Unit := do
  let index ← load64 (Node.nodeIndex tail)
  internalInitializeNode current tail 0 (index + 1)

/-- `n` nodes are appended to `node 0`. -/
def appendNodes (node : Nat → Ptr) (n : Nat) : Kern σ Unit :=
  forRange (fun i _ => appendNode (node i) (node (i + 1))) n 0 ()

/-- The first `n + 1` nodes are linked both ways and numbered on, and the area of each is
`stride` behind that of the node before it. -/
structure Chained (stride : BitVec 64) (node : Nat → Ptr) (n : Nat) (f : Nat → NodeFields) :
    Prop where
  next : ∀ i, i < n → (f i).next = node (i + 1)
  previous : ∀ i, i < n → (f (i + 1)).previous = node i
  nodeIndex : ∀ i, i < n → (f (i + 1)).nodeIndex = (f i).nodeIndex + 1
  area : ∀ i, i < n → (f (i + 1)).area = (f i).area + stride

/-- The nodes `f` with other fields in node `i` and the one behind it. -/
def twoNodes (f : Nat → NodeFields) (i : Nat) (tail current : NodeFields) : Nat → NodeFields :=
  Function.update (Function.update f i tail) (i + 1) current

/-- The nodes `f` after node `i + 1` has been appended to node `i`. -/
def appended (node : Nat → Ptr) (f : Nat → NodeFields) (i : Nat) : Nat → NodeFields :=
  twoNodes f i { f i with next := node (i + 1) }
    { f (i + 1) with
      used := 0
      previous := node i
      area := (f i).area + 1
      next := 0
      nodeIndex := (f i).nodeIndex + 1 }

section Append

variable {s t : Machine σ} {node : Nat → Ptr} {len i n : Nat} {f : Nat → NodeFields}
  {stride : BitVec 64} {tail current : NodeFields}

theorem twoNodes_current : twoNodes f i tail current (i + 1) = current := Function.update_self _ _ _

theorem twoNodes_tail : twoNodes f i tail current i = tail := by
  rw [twoNodes, Function.update_of_ne (by omega), Function.update_self]

theorem twoNodes_self : twoNodes f i (f i) (f (i + 1)) = f := by
  rw [twoNodes, Function.update_eq_self, Function.update_eq_self]

theorem update_twoNodes_current (g : NodeFields) :
    Function.update (twoNodes f i tail current) (i + 1) g = twoNodes f i tail g :=
  Function.update_idem _ _ _

theorem update_twoNodes_tail (g : NodeFields) :
    Function.update (twoNodes f i tail current) i g = twoNodes f i g current := by
  rw [twoNodes, Function.update_comm (by omega), Function.update_idem, twoNodes]

theorem appended_of_lt {j : Nat} (h : j < i) (node : Nat → Ptr) (f : Nat → NodeFields) :
    appended node f i j = f j := by
  rw [appended, twoNodes, Function.update_of_ne (by omega), Function.update_of_ne (by omega)]

theorem appended_tail (node : Nat → Ptr) (f : Nat → NodeFields) (i : Nat) :
    appended node f i i = { f i with next := node (i + 1) } := twoNodes_tail

theorem appended_new (node : Nat → Ptr) (f : Nat → NodeFields) (i : Nat) :
    appended node f i (i + 1) =
      { f (i + 1) with
        used := 0
        previous := node i
        area := (f i).area + 1
        next := 0
        nodeIndex := (f i).nodeIndex + 1 } := twoNodes_current

theorem appendNode_listed (h : Listed s node len f t) (hspace : NodeSpace node len)
    (hi : i < len) :
    Returns (appendNode (node i) (node (i + 1))) t fun _ u =>
      Listed s node len (appended node f i) u := by
  have htail : i ≤ len := by omega
  have hnew : i + 1 ≤ len := by omega
  rw [appendNode]
  apply (h.load_nodeIndex hspace htail).bind
  rintro _ t0 ⟨rfl, h0⟩
  rw [← twoNodes_self (f := f) (i := i)] at h0
  rw [internalInitializeNode_eq, linkPrevious, onlyIf_pos (hspace.ne_zero htail), linkNext,
    onlyIf_neg (by simp)]
  apply (h0.store_used hspace hnew 0).bind
  intro _ t1 h1
  rw [twoNodes_current, update_twoNodes_current] at h1
  apply (h1.set_previous hspace hnew (node i)).bind
  intro _ t2 h2
  rw [twoNodes_current, update_twoNodes_current] at h2
  rw [bind_assoc]
  apply (h2.set_next hspace htail (node (i + 1))).bind
  intro _ t3 h3
  rw [twoNodes_tail, update_twoNodes_tail] at h3
  rw [bind_assoc]
  apply (h3.load_area hspace htail).bind
  rintro _ t4 ⟨rfl, h4⟩
  rw [twoNodes_tail]
  apply (h4.store_area hspace hnew ((f i).area + 1)).bind
  intro _ t5 h5
  rw [twoNodes_current, update_twoNodes_current] at h5
  rw [bind_assoc, pure_bind]
  apply (h5.set_next hspace hnew 0).bind
  intro _ t6 h6
  rw [twoNodes_current, update_twoNodes_current] at h6
  apply (h6.store_nodeIndex hspace hnew ((f i).nodeIndex + 1)).mono
  intro _ u hu
  rw [twoNodes_current, update_twoNodes_current] at hu
  exact hu

/-- What the older nodes keep when a node is appended. -/
theorem appended_old {j : Nat} (h : j ≤ i) (node : Nat → Ptr) (f : Nat → NodeFields) :
    (appended node f i j).previous = (f j).previous ∧
      (appended node f i j).nodeIndex = (f j).nodeIndex ∧
      (appended node f i j).area = (f j).area := by
  by_cases he : j = i
  · rw [he, appended_tail]
    exact ⟨rfl, rfl, rfl⟩
  · rw [appended_of_lt (by omega)]
    exact ⟨rfl, rfl, rfl⟩

theorem chained_zero : Chained stride node 0 f where
  next i hi := absurd hi (Nat.not_lt_zero i)
  previous i hi := absurd hi (Nat.not_lt_zero i)
  nodeIndex i hi := absurd hi (Nat.not_lt_zero i)
  area i hi := absurd hi (Nat.not_lt_zero i)

theorem Chained.append (h : Chained 1 node i f) : Chained 1 node (i + 1) (appended node f i) where
  next j hj := by
    by_cases he : j = i
    · rw [he, appended_tail]
    · rw [appended_of_lt (by omega), h.next j (by omega)]
  previous j hj := by
    by_cases he : j = i
    · rw [he, appended_new]
    · rw [(appended_old (by omega) node f).1, h.previous j (by omega)]
  nodeIndex j hj := by
    rw [(appended_old (show j ≤ i by omega) node f).2.1]
    by_cases he : j = i
    · rw [he, appended_new]
    · rw [(appended_old (by omega) node f).2.1, h.nodeIndex j (by omega)]
  area j hj := by
    rw [(appended_old (show j ≤ i by omega) node f).2.2]
    by_cases he : j = i
    · rw [he, appended_new]
    · rw [(appended_old (by omega) node f).2.2, h.area j (by omega)]

theorem Chained.congr {g : Nat → NodeFields} (h : Chained stride node n f)
    (hg : ∀ i, i ≤ n → g i = f i) : Chained stride node n g where
  next i hi := by rw [hg i (by omega), h.next i hi]
  previous i hi := by rw [hg (i + 1) hi, h.previous i hi]
  nodeIndex i hi := by rw [hg (i + 1) hi, hg i (by omega), h.nodeIndex i hi]
  area i hi := by rw [hg (i + 1) hi, hg i (by omega), h.area i hi]

/-- The areas lie in the order of the nodes, in steps of the stride. -/
theorem Chained.area_eq (h : Chained stride node n f) {i : Nat} (hi : i ≤ n) :
    (f i).area = (f 0).area + stride * BitVec.ofNat 64 i := by
  induction i with
  | zero => simp
  | succ i ih =>
    rw [h.area i hi, ih (by omega), BitVec.ofNat_add, BitVec.mul_add, BitVec.add_assoc]
    simp

/-- The nodes that have been appended are linked and numbered as they should be, and their
areas are one byte apart. -/
theorem appendNodes_chained (hspace : NodeSpace node len) (s : Machine σ) :
    Returns (appendNodes node len) s fun _ t =>
      Chained 1 node len (fun i => nodeAt t.mem (node i)) ∧
        (nodeAt t.mem (node 0)).area = (nodeAt s.mem (node 0)).area := by
  have hrun : Returns (appendNodes node len) s fun _ t => ∃ f, Listed s node len f t ∧
      Chained 1 node len f ∧ (f 0).area = (nodeAt s.mem (node 0)).area := by
    refine returns_forRange (fun i _ t => ∃ f, Listed s node len f t ∧ Chained 1 node i f ∧
      (f 0).area = (nodeAt s.mem (node 0)).area) len ?_ len 0 () s (Nat.zero_add _) ?_
    · rintro i _ t hi ⟨f, hlisted, hchained, hroot⟩
      apply (appendNode_listed hlisted hspace hi).mono
      intro _ u hu
      refine ⟨appended node f i, hu, hchained.append, ?_⟩
      rw [(appended_old (Nat.zero_le i) node f).2.2, hroot]
    · exact ⟨fun i => nodeAt s.mem (node i), Listed.start fun _ _ => rfl, chained_zero, rfl⟩
  apply hrun.mono
  rintro _ t ⟨f, hlisted, hchained, hroot⟩
  refine ⟨hchained.congr hlisted.nodes, ?_⟩
  rw [hlisted.nodes 0 (Nat.zero_le len), hroot]

end Append

/-! ## Behind the root of an arena -/

section Created

variable {numArenas : BitVec 64} {heapArea : Ptr} {heapSize : BitVec 64} {d len : Nat}
  {node : Nat → Ptr}

/-- Behind the root of the last arena that `MmCreateAllocatorState` sets up, the areas go on
byte by byte from the one it gave the root. -/
theorem created_areas (h : HeapSuffices numArenas heapArea heapSize d) (s : Machine MmStatics)
    (hroot : node 0 =
      rootAt (kernPhysToVirt heapArea) numArenas.toNat (numArenas.toNat - 1))
    (hspace : NodeSpace node len) :
    Returns (do
      let _ ← mmCreateAllocatorState numArenas heapArea heapSize
      appendNodes node len) s fun _ t => ∀ i, i ≤ len → (nodeAt t.mem (node i)).area =
        node 0 + 8 * nodeRoom numArenas heapSize + 8 + BitVec.ofNat 64 i := by
  have hnum := h.arenas
  apply (mmCreateAllocatorState_written h s).bind
  rintro state t ⟨-, hw⟩
  have harea := (hw.newest (numArenas.toNat - 1) (by omega)).rootArea
  rw [← hroot] at harea
  have hfield : (nodeAt t.mem (node 0)).area =
      node 0 + 8 * nodeRoom numArenas heapSize + 8 := by
    rw [nodeAt, (nodePhys (hspace.spans 0 (Nat.zero_le len))).area]
    exact harea
  apply (appendNodes_chained hspace t).mono
  rintro _ u ⟨hchained, hkept⟩ i hi
  rw [hchained.area_eq hi, hkept, hfield,
    show (1 : BitVec 64) * BitVec.ofNat 64 i = BitVec.ofNat 64 i from BitVec.one_mul _]

end Created

/-! ## Adjacent areas -/

section Adjacent

variable {node : Nat → Ptr} {len n : Nat}

/-- Linked nodes have adjacent blocks, so that the blocks of different nodes do not meet. -/
structure AdjacentAreas (m : Mem) (node : Nat → Ptr) (n : Nat) : Prop where
  chained : Chained allocBlockSize node n fun i => nodeAt m (node i)
  apart : ∀ i j, i ≤ n → j ≤ n → i ≠ j → Apart (nodeAt m (node i)).area allocBlockSize.toNat
    (nodeAt m (node j)).area allocBlockSize.toNat

/-- Areas that are one byte apart are not one block apart. -/
theorem Chained.not_adjacent {m : Mem} (h : Chained 1 node n fun i => nodeAt m (node i))
    (hn : 0 < n) : ¬ AdjacentAreas m node n := by
  intro hadjacent
  have hblock := hadjacent.chained.area 0 hn
  rw [h.area 0 hn] at hblock
  have hstride := (BitVec.add_right_inj _).mp hblock
  exact absurd hstride (by decide)

/-- A heap of eight mebibytes with one arena. -/
theorem heapSuffices_one : HeapSuffices 1 0x400000 0x800000 4096 :=
  ⟨by unfold InWindow; decide, by decide, by decide, by decide⟩

/-- The root of that heap and the nodes behind it, the first of which is its
`NextToAllocate`. -/
def firstNodes (i : Nat) : Ptr := rootAt (kernPhysToVirt 0x400000) 1 0 + BitVec.ofNat 64 (48 * i)

theorem nodeSpace_firstNodes : NodeSpace firstNodes 1 := by
  have hzero : (firstNodes 0).toNat = 0xFFFFFF8000400020 := by decide
  have hone : (firstNodes 1).toNat = 0xFFFFFF8000400050 := by decide
  have hphys : phys (firstNodes 0) = 0x400020 := by decide
  have hphys' : phys (firstNodes 1) = 0x400050 := by decide
  have hcases : ∀ i, i ≤ 1 → i = 0 ∨ i = 1 := by
    intro i hi
    omega
  refine ⟨fun i hi => ?_, fun i hi => ?_, fun i j hi hj hne => ?_⟩
  · unfold Spans
    obtain rfl | rfl := hcases i hi <;> omega
  · obtain rfl | rfl := hcases i hi <;> omega
  · obtain rfl | rfl := hcases i hi <;> obtain rfl | rfl := hcases j hj <;> omega

/-- In any memory and behind any root: the areas are adjacent if no node is appended. -/
theorem appendNodes_adjacent_iff (hspace : NodeSpace node len) (s : Machine σ) :
    (Returns (appendNodes node len) s fun _ t => AdjacentAreas t.mem node len) ↔ len = 0 := by
  obtain ⟨_, t, he, hchained, -⟩ := appendNodes_chained hspace s
  constructor
  · intro h
    by_contra hne
    exact hchained.not_adjacent (by omega) (h.of_eq he)
  · rintro rfl
    refine returns_of_eq he ⟨chained_zero, fun i j hi hj hne => ?_⟩
    omega

theorem appendNodes_adjacent_iff_first :
    (Returns (appendNodes firstNodes 1) coldMachine fun _ t => AdjacentAreas t.mem firstNodes 1) ↔
      1 = 0 :=
  appendNodes_adjacent_iff nodeSpace_firstNodes coldMachine

/-- One node behind the root of a new heap. -/
theorem firstNode_not_adjacent :
    Returns (mmCreateAllocatorState 1 0x400000 0x800000) coldMachine fun state t =>
      read64 t.mem (phys (Arena.root state.arenas)) = firstNodes 0 ∧
        ¬ Returns (appendNodes firstNodes 1) t fun _ u => AdjacentAreas u.mem firstNodes 1 := by
  apply (mmCreateAllocatorState_written heapSuffices_one coldMachine).mono
  rintro state t ⟨harenas, hw⟩
  refine ⟨?_, fun hadjacent => ?_⟩
  · rw [harenas]
    exact (hw.headers 0 (by decide)).1
  · obtain ⟨_, u, he, hchained, -⟩ := appendNodes_chained nodeSpace_firstNodes t
    exact hchained.not_adjacent (by decide) (hadjacent.of_eq he)

end Adjacent

end FeralKernel
