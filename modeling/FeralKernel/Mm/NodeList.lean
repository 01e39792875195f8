import FeralKernel.Mm.Heap
import Mathlib.Data.Finset.Card
import Mathlib.Data.Finset.Range
import Mathlib.Logic.Function.Basic

/-!
# Lists of heap nodes

The nodes of an arena as a list: the fields of `struct Node` are read together, and a
store into a field of one node is an update of that node.  What `InternalInitializeNode`
does to a node of a well-linked list is to clear its flag, set its index, and give it the
byte after the area of the node before it, if there is one.
-/

namespace FeralKernel

open Verif.Program Verif.Bytes

variable {σ : Type}

/-! ## The fields of a node -/

structure NodeFields where
  used : BitVec 32
  last : BitVec 32
  area : BitVec 64
  nodeIndex : BitVec 64
  previous : Ptr
  next : Ptr
  chunkIncrement : BitVec 64
deriving DecidableEq

/-- The node at `n`. -/
def nodeAt (m : Mem) (n : Ptr) : NodeFields where
  used := read32 m (phys (Node.used n))
  last := read32 m (phys (Node.last n))
  area := read64 m (phys (Node.area n))
  nodeIndex := read64 m (phys (Node.nodeIndex n))
  previous := read64 m (phys (Node.previous n))
  next := read64 m (phys (Node.next n))
  chunkIncrement := read64 m (phys (Node.chunkIncrement n))

section Fields

variable {m m' : Mem} {n : Ptr}

/-- Where the fields of a node lie. -/
structure NodePhys (n : Ptr) : Prop where
  used : phys (Node.used n) = phys n
  last : phys (Node.last n) = phys n + 4
  area : phys (Node.area n) = phys n + 8
  nodeIndex : phys (Node.nodeIndex n) = phys n + 16
  previous : phys (Node.previous n) = phys n + 24
  next : phys (Node.next n) = phys n + 32
  chunkIncrement : phys (Node.chunkIncrement n) = phys n + 40

theorem nodePhys (h : Spans n 48) : NodePhys n :=
  ⟨phys_add h (k := 0) (by decide), phys_add h (k := 4) (by decide),
    phys_add h (k := 8) (by decide), phys_add h (k := 16) (by decide),
    phys_add h (k := 24) (by decide), phys_add h (k := 32) (by decide),
    phys_add h (k := 40) (by decide)⟩

theorem nodeAt_congr (h : Spans n 48)
    (hm : ∀ x, phys n ≤ x → x < phys n + 48 → m' x = m x) : nodeAt m' n = nodeAt m n := by
  have hp := nodePhys h
  have h32 : ∀ k, k + 4 ≤ 48 → read32 m' (phys n + k) = read32 m (phys n + k) := fun k hk =>
    read32_congr fun x h1 h2 => hm x (by omega) (by omega)
  have h64 : ∀ k, k + 8 ≤ 48 → read64 m' (phys n + k) = read64 m (phys n + k) := fun k hk =>
    read64_congr fun x h1 h2 => hm x (by omega) (by omega)
  have hused : read32 m' (phys n) = read32 m (phys n) := h32 0 (by decide)
  simp only [nodeAt, hp.used, hp.last, hp.area, hp.nodeIndex, hp.previous, hp.next,
    hp.chunkIncrement, hused, h32 4 (by decide), h64 8 (by decide), h64 16 (by decide),
    h64 24 (by decide), h64 32 (by decide), h64 40 (by decide)]

variable (h : Spans n 48)
include h

theorem nodeAt_setUsed (v : BitVec 32) :
    nodeAt (write32 m (phys (Node.used n)) v) n = { nodeAt m n with used := v } := by
  have hp := nodePhys h
  simp (disch := omega) only [nodeAt, hp.used, hp.last, hp.area, hp.nodeIndex, hp.previous,
    hp.next, hp.chunkIncrement, read32_write32_same, read32_write32_outside,
    read64_write32_outside]

theorem nodeAt_setArea (v : BitVec 64) :
    nodeAt (write64 m (phys (Node.area n)) v) n = { nodeAt m n with area := v } := by
  have hp := nodePhys h
  simp (disch := omega) only [nodeAt, hp.used, hp.last, hp.area, hp.nodeIndex, hp.previous,
    hp.next, hp.chunkIncrement, read64_write64_same, read64_write64_outside,
    read32_write64_outside]

theorem nodeAt_setNodeIndex (v : BitVec 64) :
    nodeAt (write64 m (phys (Node.nodeIndex n)) v) n = { nodeAt m n with nodeIndex := v } := by
  have hp := nodePhys h
  simp (disch := omega) only [nodeAt, hp.used, hp.last, hp.area, hp.nodeIndex, hp.previous,
    hp.next, hp.chunkIncrement, read64_write64_same, read64_write64_outside,
    read32_write64_outside]

theorem nodeAt_setPrevious (v : Ptr) :
    nodeAt (write64 m (phys (Node.previous n)) v) n = { nodeAt m n with previous := v } := by
  have hp := nodePhys h
  simp (disch := omega) only [nodeAt, hp.used, hp.last, hp.area, hp.nodeIndex, hp.previous,
    hp.next, hp.chunkIncrement, read64_write64_same, read64_write64_outside,
    read32_write64_outside]

theorem nodeAt_setNext (v : Ptr) :
    nodeAt (write64 m (phys (Node.next n)) v) n = { nodeAt m n with next := v } := by
  have hp := nodePhys h
  simp (disch := omega) only [nodeAt, hp.used, hp.last, hp.area, hp.nodeIndex, hp.previous,
    hp.next, hp.chunkIncrement, read64_write64_same, read64_write64_outside,
    read32_write64_outside]

theorem nodeAt_setChunkIncrement (v : BitVec 64) :
    nodeAt (write64 m (phys (Node.chunkIncrement n)) v) n =
      { nodeAt m n with chunkIncrement := v } := by
  have hp := nodePhys h
  simp (disch := omega) only [nodeAt, hp.used, hp.last, hp.area, hp.nodeIndex, hp.previous,
    hp.next, hp.chunkIncrement, read64_write64_same, read64_write64_outside,
    read32_write64_outside]

end Fields

/-! ## Lists -/

/-- The nodes up to `node len` are objects of their own: each lies in one half of the
address space, no two meet, and none lies where a null pointer points. -/
structure NodeSpace (node : Nat → Ptr) (len : Nat) : Prop where
  spans : ∀ i, i ≤ len → Spans (node i) 48
  above : ∀ i, i ≤ len → 48 ≤ (node i).toNat
  apart : ∀ i j, i ≤ len → j ≤ len → i ≠ j →
    phys (node i) + 48 ≤ phys (node j) ∨ phys (node j) + 48 ≤ phys (node i)

/-- Each node but the last has the next one as its successor and is its predecessor, and
the first has no predecessor. -/
structure WellLinked (node : Nat → Ptr) (len : Nat) (f : Nat → NodeFields) : Prop where
  next : ∀ i, i < len → (f i).next = node (i + 1)
  previous : ∀ i, i < len → (f (i + 1)).previous = node i
  first : (f 0).previous = 0

theorem WellLinked.congr {node : Nat → Ptr} {len : Nat} {f g : Nat → NodeFields}
    (h : WellLinked node len f) (hnext : ∀ i, (g i).next = (f i).next)
    (hprevious : ∀ i, (g i).previous = (f i).previous) : WellLinked node len g where
  next i hi := (hnext i).trans (h.next i hi)
  previous i hi := (hprevious (i + 1)).trans (h.previous i hi)
  first := (hprevious 0).trans h.first

/-- An access that is not through a null pointer to a node. -/
def OffNull : Event → Prop
  | .read a _ => 48 ≤ a.toNat
  | .write a _ => 48 ≤ a.toNat
  | .link _ _ => True

/-- In `t`, reached from `s` without going through a null pointer, the nodes are `f`. -/
structure Listed (s : Machine σ) (node : Nat → Ptr) (len : Nat) (f : Nat → NodeFields)
    (t : Machine σ) : Prop where
  nodes : ∀ i, i ≤ len → nodeAt t.mem (node i) = f i
  offNull : Records OffNull s t
  statics : t.statics = s.statics

section Lists

variable {s t : Machine σ} {node : Nat → Ptr} {len i : Nat} {f : Nat → NodeFields}

theorem NodeSpace.ne_zero (hspace : NodeSpace node len) (hi : i ≤ len) : node i ≠ 0 := by
  intro h
  have habove := hspace.above i hi
  rw [h] at habove
  exact absurd habove (by decide)

theorem NodeSpace.toNat_field (hspace : NodeSpace node len) (hi : i ≤ len) {k : Nat}
    (hk : k < 48) : 48 ≤ (node i + BitVec.ofNat 64 k).toNat := by
  have habove := hspace.above i hi
  have hend := (hspace.spans i hi).1
  rw [toNat_add_ofNat (by omega)]
  omega

/-- No list of nodes has more nodes than there are pointers. -/
theorem NodeSpace.length_lt (hspace : NodeSpace node len) : len < 2 ^ 64 := by
  have hinj : Set.InjOn (fun i => (node i).toNat) (Finset.range (len + 1) : Set Nat) := by
    intro i hi j hj he
    rw [Finset.coe_range, Set.mem_Iio] at hi hj
    by_contra hne
    have hsame : node i = node j := BitVec.eq_of_toNat_eq he
    have happart := hspace.apart i j (by omega) (by omega) hne
    rw [hsame] at happart
    omega
  have hmaps : ∀ i ∈ Finset.range (len + 1), (node i).toNat ∈ Finset.range (2 ^ 64) :=
    fun i _ => Finset.mem_range.mpr (node i).isLt
  have hcard := Finset.card_le_card_of_injOn _ hmaps hinj
  rw [Finset.card_range, Finset.card_range] at hcard
  omega

theorem Listed.start {s : Machine σ} (h : ∀ i, i ≤ len → nodeAt s.mem (node i) = f i) :
    Listed s node len f s := ⟨h, Records.refl _ s, rfl⟩

theorem Listed.read (h : Listed s node len f t) (a : Ptr) (n : Nat) (ha : 48 ≤ a.toNat) :
    Listed s node len f (t.note (.read a n)) :=
  ⟨h.nodes, h.offNull.note (e := .read a n) ha rfl, h.statics⟩

/-- A store into one node. -/
theorem Listed.write (h : Listed s node len f t) (hspace : NodeSpace node len) (hi : i ≤ len)
    {m : Mem} {g : NodeFields} (hin : nodeAt m (node i) = g)
    (hout : ∀ x, x < phys (node i) ∨ phys (node i) + 48 ≤ x → m x = t.mem x) (a : Ptr) (n : Nat)
    (ha : 48 ≤ a.toNat) :
    Listed s node len (Function.update f i g) ((t.setMem m).note (.write a n)) := by
  refine ⟨fun j hj => ?_, h.offNull.note (e := .write a n) ha rfl, h.statics⟩
  show nodeAt m (node j) = _
  by_cases he : j = i
  · rw [he, Function.update_self, hin]
  · have hapart := hspace.apart i j hi hj (fun hc => he hc.symm)
    rw [Function.update_of_ne he, ← h.nodes j hj]
    exact nodeAt_congr (hspace.spans j hj) fun x h1 h2 => hout x (by omega)

section Access

variable (h : Listed s node len f t) (hspace : NodeSpace node len) (hi : i ≤ len)
include h hspace hi

theorem Listed.load_used : Returns (load32 (Node.used (node i))) t fun v u =>
    v = (f i).used ∧ Listed s node len f u := by
  rw [returns_load32, ← h.nodes i hi]
  exact ⟨rfl, h.read _ _ (hspace.toNat_field hi (k := 0) (by decide))⟩

theorem Listed.load_last : Returns (load32 (Node.last (node i))) t fun v u =>
    v = (f i).last ∧ Listed s node len f u := by
  rw [returns_load32, ← h.nodes i hi]
  exact ⟨rfl, h.read _ _ (hspace.toNat_field hi (k := 4) (by decide))⟩

theorem Listed.load_area : Returns (load64 (Node.area (node i))) t fun v u =>
    v = (f i).area ∧ Listed s node len f u := by
  rw [returns_load64, ← h.nodes i hi]
  exact ⟨rfl, h.read _ _ (hspace.toNat_field hi (k := 8) (by decide))⟩

theorem Listed.load_nodeIndex : Returns (load64 (Node.nodeIndex (node i))) t fun v u =>
    v = (f i).nodeIndex ∧ Listed s node len f u := by
  rw [returns_load64, ← h.nodes i hi]
  exact ⟨rfl, h.read _ _ (hspace.toNat_field hi (k := 16) (by decide))⟩

theorem Listed.load_previous : Returns (load64 (Node.previous (node i))) t fun v u =>
    v = (f i).previous ∧ Listed s node len f u := by
  rw [returns_load64, ← h.nodes i hi]
  exact ⟨rfl, h.read _ _ (hspace.toNat_field hi (k := 24) (by decide))⟩

theorem Listed.load_next : Returns (load64 (Node.next (node i))) t fun v u =>
    v = (f i).next ∧ Listed s node len f u := by
  rw [returns_load64, ← h.nodes i hi]
  exact ⟨rfl, h.read _ _ (hspace.toNat_field hi (k := 32) (by decide))⟩

theorem Listed.store_used (v : BitVec 32) :
    Returns (store32 (Node.used (node i)) v) t fun _ u =>
      Listed s node len (Function.update f i { f i with used := v }) u := by
  have hp := nodePhys (hspace.spans i hi)
  rw [returns_store32]
  refine h.write hspace hi ?_ ?_ _ _ (hspace.toNat_field hi (k := 0) (by decide))
  · rw [nodeAt_setUsed (hspace.spans i hi), h.nodes i hi]
  · intro x hx
    rw [hp.used, write32_outside (by omega)]

theorem Listed.store_area (v : BitVec 64) :
    Returns (store64 (Node.area (node i)) v) t fun _ u =>
      Listed s node len (Function.update f i { f i with area := v }) u := by
  have hp := nodePhys (hspace.spans i hi)
  rw [returns_store64]
  refine h.write hspace hi ?_ ?_ _ _ (hspace.toNat_field hi (k := 8) (by decide))
  · rw [nodeAt_setArea (hspace.spans i hi), h.nodes i hi]
  · intro x hx
    rw [hp.area, write64_outside (by omega)]

theorem Listed.store_nodeIndex (v : BitVec 64) :
    Returns (store64 (Node.nodeIndex (node i)) v) t fun _ u =>
      Listed s node len (Function.update f i { f i with nodeIndex := v }) u := by
  have hp := nodePhys (hspace.spans i hi)
  rw [returns_store64]
  refine h.write hspace hi ?_ ?_ _ _ (hspace.toNat_field hi (k := 16) (by decide))
  · rw [nodeAt_setNodeIndex (hspace.spans i hi), h.nodes i hi]
  · intro x hx
    rw [hp.nodeIndex, write64_outside (by omega)]

theorem Listed.store_chunkIncrement (v : BitVec 64) :
    Returns (store64 (Node.chunkIncrement (node i)) v) t fun _ u =>
      Listed s node len (Function.update f i { f i with chunkIncrement := v }) u := by
  have hp := nodePhys (hspace.spans i hi)
  rw [returns_store64]
  refine h.write hspace hi ?_ ?_ _ _ (hspace.toNat_field hi (k := 40) (by decide))
  · rw [nodeAt_setChunkIncrement (hspace.spans i hi), h.nodes i hi]
  · intro x hx
    rw [hp.chunkIncrement, write64_outside (by omega)]

theorem Listed.set_previous (v : Ptr) :
    Returns (store64 (Node.previous (node i)) v) t fun _ u =>
      Listed s node len (Function.update f i { f i with previous := v }) u := by
  have hp := nodePhys (hspace.spans i hi)
  rw [returns_store64]
  refine h.write hspace hi ?_ ?_ _ _ (hspace.toNat_field hi (k := 24) (by decide))
  · rw [nodeAt_setPrevious (hspace.spans i hi), h.nodes i hi]
  · intro x hx
    rw [hp.previous, write64_outside (by omega)]

theorem Listed.set_next (v : Ptr) :
    Returns (store64 (Node.next (node i)) v) t fun _ u =>
      Listed s node len (Function.update f i { f i with next := v }) u := by
  have hp := nodePhys (hspace.spans i hi)
  rw [returns_store64]
  refine h.write hspace hi ?_ ?_ _ _ (hspace.toNat_field hi (k := 32) (by decide))
  · rw [nodeAt_setNext (hspace.spans i hi), h.nodes i hi]
  · intro x hx
    rw [hp.next, write64_outside (by omega)]

/-- A link that is stored again. -/
theorem Listed.store_previous {v : Ptr} (hv : (f i).previous = v) :
    Returns (store64 (Node.previous (node i)) v) t fun _ u => Listed s node len f u := by
  have hsame : Function.update f i { f i with previous := v } = f := by
    rw [← hv, Function.update_eq_self]
  have hset := h.set_previous hspace hi v
  rw [hsame] at hset
  exact hset

theorem Listed.store_next {v : Ptr} (hv : (f i).next = v) :
    Returns (store64 (Node.next (node i)) v) t fun _ u => Listed s node len f u := by
  have hsame : Function.update f i { f i with next := v } = f := by
    rw [← hv, Function.update_eq_self]
  have hset := h.set_next hspace hi v
  rw [hsame] at hset
  exact hset

end Access

/-! ## A node that is initialised again -/

theorem update_next {g : NodeFields} (hg : g.next = (f i).next) (j : Nat) :
    (Function.update f i g j).next = (f j).next := by
  by_cases hj : j = i
  · rw [hj, Function.update_self, hg]
  · rw [Function.update_of_ne hj]

theorem update_previous {g : NodeFields} (hg : g.previous = (f i).previous) (j : Nat) :
    (Function.update f i g j).previous = (f j).previous := by
  by_cases hj : j = i
  · rw [hj, Function.update_self, hg]
  · rw [Function.update_of_ne hj]

/-- The nodes `f` after `InternalInitializeNode` on node `i`: what its fields were stays in
the chunk count and the links, and the root, which has no node before it, keeps its area. -/
def initialized (f : Nat → NodeFields) (i : Nat) (index : BitVec 64) : Nat → NodeFields :=
  Function.update f i
    { f i with
      used := 0
      area := if i = 0 then (f i).area else (f (i - 1)).area + 1
      nodeIndex := index }

theorem initialized_of_ne {j : Nat} (h : j ≠ i) (index : BitVec 64) :
    initialized f i index j = f j := Function.update_of_ne h _ f

@[simp] theorem initialized_self_used (i : Nat) (index : BitVec 64) :
    (initialized f i index i).used = 0 := by rw [initialized, Function.update_self]

@[simp] theorem initialized_last (i : Nat) (index : BitVec 64) (j : Nat) :
    (initialized f i index j).last = (f j).last := by
  by_cases h : j = i
  · rw [h, initialized, Function.update_self]
  · rw [initialized_of_ne h]

@[simp] theorem initialized_next (i : Nat) (index : BitVec 64) (j : Nat) :
    (initialized f i index j).next = (f j).next := by
  by_cases h : j = i
  · rw [h, initialized, Function.update_self]
  · rw [initialized_of_ne h]

/-- What `InternalInitializeNode` does with the node before, where there is one. -/
def linkPrevious (current previous : Ptr) : Kern σ Unit :=
  onlyIf (previous ≠ 0) do
    store64 (Node.next previous) current
    let area ← load64 (Node.area previous)
    store64 (Node.area current) (area + 1)

/-- And with the node behind. -/
def linkNext (current next : Ptr) : Kern σ Unit := do
  store64 (Node.next current) next
  onlyIf (next ≠ 0) (store64 (Node.previous next) current)

theorem internalInitializeNode_eq (current previous next : Ptr) (index : BitVec 64) :
    (internalInitializeNode current previous next index : Kern σ Unit) = (do
      store32 (Node.used current) 0
      store64 (Node.previous current) previous
      linkPrevious current previous
      linkNext current next
      store64 (Node.nodeIndex current) index) := by
  by_cases hp : previous = 0 <;> by_cases hn : next = 0 <;>
    simp only [internalInitializeNode, linkPrevious, linkNext, onlyIf, hp, hn, ne_eq, eq_self,
      not_true_eq_false, not_false_eq_true, if_true, if_false, bind_assoc, pure_bind]

section Initialize

variable (h : Listed s node len f t) (hspace : NodeSpace node len)
  (hlinked : WellLinked node len f)
include h hspace hlinked

/-- Behind the root the node takes the byte after the area of the node before it. -/
theorem Listed.link_previous {j : Nat} (hj : j < len) :
    Returns (linkPrevious (node (j + 1)) (node j)) t fun _ u =>
      Listed s node len
        (Function.update f (j + 1) { f (j + 1) with area := (f j).area + 1 }) u := by
  rw [linkPrevious, onlyIf_pos (hspace.ne_zero (by omega))]
  apply (h.store_next hspace (by omega) (hlinked.next j hj)).bind
  intro _ t1 h1
  apply (h1.load_area hspace (by omega)).bind
  intro area t2 h2
  obtain ⟨rfl, h2⟩ := h2
  exact h2.store_area hspace (by omega) _

/-- The successor, where there is one, already points back. -/
theorem Listed.link_next (hi : i ≤ len) (hend : i = len → (f i).next = 0) :
    Returns (linkNext (node i) (f i).next) t fun _ u => Listed s node len f u := by
  apply (h.store_next hspace hi rfl).bind
  intro _ t1 h1
  by_cases hlast : i = len
  · rw [hend hlast, onlyIf_neg (by simp), returns_pure]
    exact h1
  · rw [hlinked.next i (by omega), onlyIf_pos (hspace.ne_zero (by omega))]
    exact h1.store_previous hspace (by omega) (hlinked.previous i (by omega))

theorem internalInitializeNode_listed (hi : i ≤ len) (hend : i = len → (f i).next = 0)
    (index : BitVec 64) :
    Returns (internalInitializeNode (node i) (f i).previous (f i).next index) t fun _ u =>
      Listed s node len (initialized f i index) u := by
  rw [internalInitializeNode_eq]
  apply (h.store_used hspace hi 0).bind
  intro _ t1 h1
  generalize hf1 : Function.update f i { f i with used := 0 } = f1 at h1
  have hlinked1 : WellLinked node len f1 := by
    rw [← hf1]
    exact hlinked.congr (update_next rfl) (update_previous rfl)
  have hself : f1 i = { f i with used := 0 } := by rw [← hf1, Function.update_self]
  apply (h1.store_previous hspace hi (v := (f i).previous) (by rw [hself])).bind
  intro _ t2 h2
  have hprevious : Returns (linkPrevious (node i) (f i).previous) t2 fun _ u =>
      Listed s node len (Function.update f1 i
        { f1 i with area := if i = 0 then (f i).area else (f (i - 1)).area + 1 }) u := by
    cases i with
    | zero =>
      rw [linkPrevious, hlinked.first, onlyIf_neg (by simp), returns_pure, if_pos rfl]
      have hkeep : { f1 0 with area := (f 0).area } = f1 0 := by rw [hself]
      rw [hkeep, Function.update_eq_self]
      exact h2
    | succ j =>
      have hj : f1 j = f j := by rw [← hf1, Function.update_of_ne (by omega)]
      rw [hlinked.previous j (by omega), if_neg (by omega), Nat.add_sub_cancel, ← hj]
      exact h2.link_previous hspace hlinked1 (by omega)
  apply hprevious.bind
  intro _ t3 h3
  have hnext : (f i).next = (Function.update f1 i
      { f1 i with area := if i = 0 then (f i).area else (f (i - 1)).area + 1 } i).next := by
    rw [Function.update_self, hself]
  rw [hnext] at hend ⊢
  apply (h3.link_next hspace (hlinked1.congr (update_next rfl) (update_previous rfl)) hi hend).bind
  intro _ t4 h4
  apply (h4.store_nodeIndex hspace hi index).mono
  intro _ u hu
  rw [Function.update_self, Function.update_idem, hself, ← hf1, Function.update_idem] at hu
  exact hu

end Initialize

end Lists

end FeralKernel
