import FeralKernel.Mm.HeapRun

/-!
# Several arenas

`MmCreateAllocatorState` walks the heap in three strides: headers of 32 bytes, nodes of 48,
and words of eight.  The root of an arena lies as many headers behind its own header as there
are arenas, so the roots are 32 bytes apart, and the two nodes of an arena take 96.  With one
arena the nodes do not meet others, but the area starts by words behind the root where the
room is counted in nodes.
-/

namespace FeralKernel

open Verif.Program Verif.Bytes

/-! ## What is asked for -/

/-- What the allocator keeps for each arena. -/
inductive ArenaPart where
  | header
  | root
  | nextToAllocate
  | data
deriving DecidableEq

/-- `&Arenas[c]`. -/
def arenaAt (arenas : Ptr) (c : Nat) : Ptr := arenas + Arena.byteSize * BitVec.ofNat 64 c

/-- Where a part of an arena starts, by the pointers in memory. -/
def arenaPart (m : Mem) (arena : Ptr) : ArenaPart → Ptr
  | .header => arena
  | .root => read64 m (phys (Arena.root arena))
  | .nextToAllocate => read64 m (phys (Arena.nextToAllocate arena))
  | .data => read64 m (phys (Node.area (read64 m (phys (Arena.root arena)))))

/-- And how many bytes it has, with data areas of `d` bytes. -/
def ArenaPart.bytes (d : Nat) : ArenaPart → Nat
  | .header => 32
  | .root => 48
  | .nextToAllocate => 48
  | .data => d

/-- The arenas are laid out in the `size` bytes from `heap` on: every part of every arena lies
inside, no two meet, and the two nodes of each arena hold what was written to them. -/
structure LaidOut (m : Mem) (arenas heap : Ptr) (size num d : Nat) : Prop where
  inside : ∀ c, c < num → ∀ part : ArenaPart,
    heap.toNat ≤ (arenaPart m (arenaAt arenas c) part).toNat ∧
      (arenaPart m (arenaAt arenas c) part).toNat + part.bytes d ≤ heap.toNat + size
  apart : ∀ c c', c < num → c' < num → ∀ part part' : ArenaPart, (c, part) ≠ (c', part') →
    Apart (arenaPart m (arenaAt arenas c) part) (part.bytes d)
      (arenaPart m (arenaAt arenas c') part') (part'.bytes d)
  previous : ∀ c, c < num →
    read64 m (phys (Node.previous (arenaPart m (arenaAt arenas c) .nextToAllocate))) =
      arenaPart m (arenaAt arenas c) .root
  nodeIndex : ∀ c, c < num →
    read64 m (phys (Node.nodeIndex (arenaPart m (arenaAt arenas c) .root))) = 0

/-- The heap has room for the header, the two nodes and the data area of each arena. -/
structure HeapSuffices (numArenas : BitVec 64) (heapArea : Ptr) (heapSize : BitVec 64)
    (d : Nat) : Prop where
  window : InWindow heapArea heapSize.toNat
  arenas : 1 ≤ numArenas.toNat
  data : 1 ≤ d
  size : numArenas.toNat * (32 + 2 * 48 + d) ≤ heapSize.toNat

def CreatesArenas (s : Machine MmStatics) (numArenas : BitVec 64) (heapArea : Ptr)
    (heapSize : BitVec 64) (d : Nat) : Prop :=
  Returns (mmCreateAllocatorState numArenas heapArea heapSize) s fun state t =>
    LaidOut t.mem state.arenas (kernPhysToVirt heapArea) heapSize.toNat numArenas.toNat d

/-! ## The loop -/

theorem arenaAt_eq (b : Ptr) (c : Nat) : arenaAt b c = b + BitVec.ofNat 64 (32 * c) := by
  rw [arenaAt, BitVec.ofNat_mul]
  rfl

/-- `&ArenaStart[c] + NumArenas`, as a node. -/
def rootAt (b : Ptr) (num c : Nat) : Ptr := b + BitVec.ofNat 64 (32 * (c + num))

theorem arenaAt_add_root (b : Ptr) (numArenas : BitVec 64) (c : Nat) :
    arenaAt b c + Arena.byteSize * numArenas = rootAt b numArenas.toNat c := by
  have hnum : Arena.byteSize * numArenas = BitVec.ofNat 64 (32 * numArenas.toNat) := by
    rw [BitVec.ofNat_mul, BitVec.ofNat_toNat, BitVec.setWidth_eq]
    rfl
  rw [arenaAt_eq, hnum, rootAt, BitVec.add_assoc, ← BitVec.ofNat_add, Nat.mul_add]

/-- After `c` rounds: the headers written so far, and the newest arena as a whole. -/
structure ArenasWritten (m : Mem) (b : Ptr) (num : Nat) (nodeSize : BitVec 64) (c : Nat) :
    Prop where
  headers : ∀ j, j < c → read64 m (phys b + 32 * j + 16) = rootAt b num j ∧
    read64 m (phys b + 32 * j + 24) = rootAt b num j + 48#64
  newest : ∀ j, j + 1 = c →
    ArenaWritten m (arenaAt b j) (rootAt b num j) (rootAt b num j + 8 * nodeSize + 8)

section Loop

variable {b : Ptr} {numArenas heapAmount nodeSize : BitVec 64} {size : Nat}

/-- A round writes its own header and nodes, which are behind all headers. -/
theorem initializeArena_round (hb : Spans b size) (hsize : 128 * numArenas.toNat ≤ size) {i : Nat}
    (hi : i < numArenas.toNat) {s : Machine MmStatics}
    (h : ArenasWritten s.mem b numArenas.toNat nodeSize i) :
    Returns (initializeArena numArenas heapAmount b nodeSize (BitVec.ofNat 64 i)) s fun _ t =>
      ArenasWritten t.mem b numArenas.toNat nodeSize (i + 1) := by
  have harena : phys (arenaAt b i) = phys b + 32 * i := by
    rw [arenaAt_eq]
    exact phys_add hb (by omega)
  have hroot : phys (rootAt b numArenas.toNat i) = phys b + 32 * (i + numArenas.toNat) :=
    phys_add hb (by omega)
  have hspan : Spans (arenaAt b i) 32 := by
    rw [arenaAt_eq]
    exact hb.sub (by omega) (by omega)
  have hstart : b + Arena.byteSize * BitVec.ofNat 64 i = arenaAt b i := rfl
  apply (initializeArena_written hstart (arenaAt_add_root b numArenas i) hspan
    (hb.sub (by omega) (by omega)) (by omega)).mono
  intro _ t ht
  obtain ⟨hw, hframe, -⟩ := ht
  have hframe64 : ∀ j, j < i → ∀ k, k + 8 ≤ 32 →
      read64 t.mem (phys b + 32 * j + k) = read64 s.mem (phys b + 32 * j + k) := by
    intro j hj k hk
    exact read64_congr fun x h1 h2 => hframe x (by omega) (by omega)
  refine ⟨fun j hj => ?_, fun j hj => ?_⟩
  · by_cases hji : j = i
    · rw [hji, ← harena]
      exact ⟨hw.header, hw.nextToAllocate⟩
    · rw [hframe64 j (by omega) 16 (by omega), hframe64 j (by omega) 24 (by omega)]
      exact h.headers j (by omega)
  · rw [show j = i by omega]
    exact hw

end Loop

section Create

variable {numArenas : BitVec 64} {heapArea : Ptr} {heapSize : BitVec 64} {d : Nat}

theorem HeapSuffices.room (h : HeapSuffices numArenas heapArea heapSize d) :
    129 * numArenas.toNat ≤ heapSize.toNat := by
  have hsize := h.size
  have hdata := h.data
  calc 129 * numArenas.toNat = numArenas.toNat * 129 := Nat.mul_comm ..
    _ ≤ numArenas.toNat * (32 + 2 * 48 + d) := Nat.mul_le_mul_left _ (by omega)
    _ ≤ heapSize.toNat := hsize

/-- `NodeSize` of the source. -/
def nodeRoom (numArenas heapSize : BitVec 64) : BitVec 64 :=
  heapSize / numArenas / (numArenas * Node.size)

theorem mmCreateAllocatorState_written (h : HeapSuffices numArenas heapArea heapSize d)
    (s : Machine MmStatics) :
    Returns (mmCreateAllocatorState numArenas heapArea heapSize) s fun state t =>
      state.arenas = kernPhysToVirt heapArea ∧
      ArenasWritten t.mem (kernPhysToVirt heapArea) numArenas.toNat
        (nodeRoom numArenas heapSize) numArenas.toNat := by
  have hroom := h.room
  have hnum := h.arenas
  have hw := h.window
  rw [InWindow] at hw
  have hset := setBytes_le heapSize
  have hnum' : numArenas ≠ 0 := by
    rintro rfl
    exact absurd hnum (by decide)
  have hlt : numArenas.toNat * 48 < 2 ^ 64 := by omega
  have hmul : (numArenas * Node.size).toNat = numArenas.toNat * 48 := by
    rw [BitVec.toNat_mul]
    exact Nat.mod_eq_of_lt hlt
  have hnode : numArenas * Node.size ≠ 0 := by
    intro hz
    rw [hz, show (0 : BitVec 64).toNat = 0 from rfl] at hmul
    omega
  rw [mmCreateAllocatorState]
  apply (kiSetMemoryBytes_spec (h.window.spans.mono (by omega)) (by omega)).bind
  intro _ t _
  rw [returns_bind, returns_divide]
  refine ⟨hnum', ?_⟩
  rw [returns_bind, returns_divide]
  refine ⟨hnode, ?_⟩
  apply (returns_forRange
    (fun c _ u => ArenasWritten u.mem (kernPhysToVirt heapArea) numArenas.toNat
      (nodeRoom numArenas heapSize) c)
    numArenas.toNat (fun i _ u hi hu => initializeArena_round
      (spans_kernPhysToVirt h.window (by omega)) (by omega) hi hu)
    numArenas.toNat 0 () t (by omega) ⟨fun j hj => by omega, fun j hj => by omega⟩).bind
  intro _ u hu
  simp only [returns_bind, returns_getStatics, returns_setStatics, returns_pure]
  exact ⟨trivial, hu⟩

end Create

/-! ## Which layouts are sound -/

section Layout

variable {numArenas : BitVec 64} {heapArea : Ptr} {heapSize : BitVec 64} {d : Nat} {m : Mem}

theorem HeapSuffices.toNat_add (h : HeapSuffices numArenas heapArea heapSize d) {k : Nat}
    (hk : k < heapSize.toNat) :
    (kernPhysToVirt heapArea + BitVec.ofNat 64 k).toNat = (kernPhysToVirt heapArea).toNat + k := by
  have hend := (spans_kernPhysToVirt h.window (by omega)).1
  exact toNat_add_ofNat (by omega)

/-- The roots of two arenas are one header apart. -/
theorem ArenasWritten.toNat_root (h : HeapSuffices numArenas heapArea heapSize d) {q : BitVec 64}
    (hw : ArenasWritten m (kernPhysToVirt heapArea) numArenas.toNat q numArenas.toNat) {c : Nat}
    (hc : c < numArenas.toNat) :
    (arenaPart m (arenaAt (kernPhysToVirt heapArea) c) .root).toNat =
      (kernPhysToVirt heapArea).toNat + 32 * (c + numArenas.toNat) := by
  have hroom := h.room
  have hspan := spans_kernPhysToVirt h.window (by omega)
  have hfield : phys (Arena.root (arenaAt (kernPhysToVirt heapArea) c)) =
      phys (kernPhysToVirt heapArea) + 32 * c + 16 := by
    rw [Arena.root, arenaAt_eq, BitVec.add_assoc,
      show (16#64 : BitVec 64) = BitVec.ofNat 64 16 from rfl, ← BitVec.ofNat_add,
      phys_add hspan (by omega), Nat.add_assoc]
  rw [arenaPart, hfield, (hw.headers c hc).1, rootAt, h.toNat_add (by omega)]

theorem not_laidOut_of_two (h : HeapSuffices numArenas heapArea heapSize d) {q : BitVec 64}
    (hw : ArenasWritten m (kernPhysToVirt heapArea) numArenas.toNat q numArenas.toNat)
    (htwo : 2 ≤ numArenas.toNat) {heap : Ptr} {size : Nat} :
    ¬ LaidOut m (kernPhysToVirt heapArea) heap size numArenas.toNat d := by
  intro hlaid
  have hapart := hlaid.apart 0 1 (by omega) (by omega) .root .root (by simp)
  simp only [Apart, ArenaPart.bytes, hw.toNat_root h (show 0 < numArenas.toNat by omega),
    hw.toNat_root h (show 1 < numArenas.toNat by omega)] at hapart
  omega

/-- Where the parts of a single arena lie, with room for `q` words before its area. -/
def partOffset (q : Nat) : ArenaPart → Nat
  | .header => 0
  | .root => 32
  | .nextToAllocate => 80
  | .data => 40 + 8 * q

/-- The area of a single arena has to keep clear of its two nodes. -/
theorem laidOut_one_iff {b : Ptr} {size q : Nat} (hd : 1 ≤ d)
    (hparts : ∀ part, (arenaPart m (arenaAt b 0) part).toNat = b.toNat + partOffset q part)
    (hsize : 129 ≤ size)
    (hprevious : read64 m (phys (Node.previous (arenaPart m (arenaAt b 0) .nextToAllocate))) =
      arenaPart m (arenaAt b 0) .root)
    (hindex : read64 m (phys (Node.nodeIndex (arenaPart m (arenaAt b 0) .root))) = 0) :
    LaidOut m b b size 1 d ↔ 11 ≤ q ∧ 40 + 8 * q + d ≤ size := by
  have hzero : ∀ c, c < 1 → c = 0 := by omega
  constructor
  · intro h
    have hinside := (h.inside 0 (by omega) .data).2
    have hroot := h.apart 0 0 (by omega) (by omega) .data .root (by simp)
    have hnext := h.apart 0 0 (by omega) (by omega) .data .nextToAllocate (by simp)
    simp only [Apart, hparts, partOffset, ArenaPart.bytes] at hinside hroot hnext
    omega
  · rintro ⟨hq, hdata⟩
    refine ⟨fun c hc part => ?_, fun c c' hc hc' part part' hne => ?_, fun c hc => ?_,
      fun c hc => ?_⟩
    · rw [hzero c hc, hparts]
      cases part <;> simp only [partOffset, ArenaPart.bytes] <;> omega
    · rw [hzero c hc, hzero c' hc'] at hne ⊢
      have hne' : part ≠ part' := fun he => hne (by rw [he])
      rw [Apart, hparts, hparts]
      cases part <;> cases part' <;> simp only [partOffset, ArenaPart.bytes] <;>
        first
        | exact absurd rfl hne'
        | omega
    · rw [hzero c hc]
      exact hprevious
    · rw [hzero c hc]
      exact hindex

section Single

variable {b area : Ptr} (hb : Spans b 128) (hw : ArenaWritten m b (b + 32#64) area)
include hb hw

theorem ArenaWritten.part_root : arenaPart m b .root = b + 32#64 := by
  rw [arenaPart, Arena.root, phys_add hb (by omega)]
  exact hw.header

theorem ArenaWritten.part_nextToAllocate : arenaPart m b .nextToAllocate = b + 80#64 := by
  rw [arenaPart, Arena.nextToAllocate, phys_add hb (by omega), hw.nextToAllocate, BitVec.add_assoc]
  rfl

theorem ArenaWritten.part_data : arenaPart m b .data = area := by
  have hroot := hw.part_root hb
  rw [arenaPart] at hroot
  rw [arenaPart, hroot, Node.area, phys_add (hb.sub (k := 32) (j := 96) (by omega) (by omega))
    (by omega)]
  exact hw.rootArea

theorem ArenaWritten.read_previous :
    read64 m (phys (Node.previous (arenaPart m b .nextToAllocate))) = arenaPart m b .root := by
  have hnext : phys (b + (80#64 + 24#64)) = phys (b + 32#64) + 72 := by
    rw [show phys (b + (80#64 + 24#64)) = phys b + 104 from phys_add hb (k := 104) (by omega),
      show phys (b + 32#64) = phys b + 32 from phys_add hb (k := 32) (by omega)]
  rw [hw.part_nextToAllocate hb, hw.part_root hb, Node.previous, BitVec.add_assoc, hnext]
  exact hw.previous

theorem ArenaWritten.read_nodeIndex :
    read64 m (phys (Node.nodeIndex (arenaPart m b .root))) = 0 := by
  rw [hw.part_root hb, Node.nodeIndex,
    phys_add (hb.sub (k := 32) (j := 96) (by omega) (by omega)) (by omega)]
  exact hw.rootIndex

end Single

/-- A single arena as it was written. -/
theorem laidOut_of_written (h : HeapSuffices 1 heapArea heapSize d)
    (hw : ArenasWritten m (kernPhysToVirt heapArea) 1 (nodeRoom 1 heapSize) 1) :
    LaidOut m (kernPhysToVirt heapArea) (kernPhysToVirt heapArea) heapSize.toNat 1 d ↔
      11 ≤ heapSize.toNat / 48 ∧ 40 + 8 * (heapSize.toNat / 48) + d ≤ heapSize.toNat := by
  have hroom : 129 * 1 ≤ heapSize.toNat := h.room
  have hb : Spans (kernPhysToVirt heapArea) 128 :=
    (spans_kernPhysToVirt h.window (by omega)).mono (by omega)
  have hstart : arenaAt (kernPhysToVirt heapArea) 0 = kernPhysToVirt heapArea := by
    rw [arenaAt_eq]
    exact BitVec.add_zero _
  have hroot : rootAt (kernPhysToVirt heapArea) 1 0 = kernPhysToVirt heapArea + 32#64 := rfl
  have hdiv : nodeRoom 1 heapSize = heapSize / 48#64 := by
    have hone : heapSize / 1 = heapSize := by simp
    rw [nodeRoom, hone]
    rfl
  have hnew := hw.newest 0 rfl
  rw [hstart, hroot, hdiv, rootArea_eq] at hnew
  refine laidOut_one_iff h.data ?_ (by omega) ?_ ?_
  · intro part
    rw [hstart]
    cases part with
    | header => rw [arenaPart, partOffset, Nat.add_zero]
    | root => rw [hnew.part_root hb, partOffset, h.toNat_add (k := 32) (by omega)]
    | nextToAllocate =>
      rw [hnew.part_nextToAllocate hb, partOffset, h.toNat_add (k := 80) (by omega)]
    | data => rw [hnew.part_data hb, partOffset, rootArea, h.toNat_add (by omega)]
  · rw [hstart]
    exact hnew.read_previous hb
  · rw [hstart]
    exact hnew.read_nodeIndex hb

/-- The layout is sound exactly for one arena whose area, `NodeSize` words behind the root,
starts behind both nodes and ends inside the heap. -/
theorem mmCreateAllocatorState_layout_iff (h : HeapSuffices numArenas heapArea heapSize d)
    (s : Machine MmStatics) :
    CreatesArenas s numArenas heapArea heapSize d ↔
      numArenas = 1 ∧ 11 ≤ heapSize.toNat / 48 ∧
        40 + 8 * (heapSize.toNat / 48) + d ≤ heapSize.toNat := by
  obtain ⟨state, t, he, harenas, hw⟩ := mmCreateAllocatorState_written h s
  have hpost : CreatesArenas s numArenas heapArea heapSize d ↔
      LaidOut t.mem state.arenas (kernPhysToVirt heapArea) heapSize.toNat numArenas.toNat d :=
    ⟨fun hc => hc.of_eq he, fun hc => returns_of_eq he hc⟩
  rw [hpost, harenas]
  by_cases hone : numArenas = 1
  · subst hone
    rw [and_iff_right rfl]
    exact laidOut_of_written h hw
  · have htwo : 2 ≤ numArenas.toNat := by
      have hpos := h.arenas
      have hne : numArenas.toNat ≠ 1 := fun hnat => hone (BitVec.eq_of_toNat_eq hnat)
      omega
    exact ⟨fun hlaid => absurd hlaid (not_laidOut_of_two h hw htwo), fun hc => absurd hc.1 hone⟩

end Layout

theorem heapSuffices_two : HeapSuffices 2 0x400000 0x800000 4096 :=
  ⟨by unfold InWindow; decide, by decide, by decide, by decide⟩

theorem mmCreateAllocatorState_layout_iff_two :
    CreatesArenas coldMachine 2 0x400000 0x800000 4096 ↔
      (2 : BitVec 64) = 1 ∧ 11 ≤ (0x800000 : BitVec 64).toNat / 48 ∧
        40 + 8 * ((0x800000 : BitVec 64).toNat / 48) + 4096 ≤ (0x800000 : BitVec 64).toNat :=
  mmCreateAllocatorState_layout_iff heapSuffices_two coldMachine

/-- Two arenas in eight mebibytes. -/
theorem mmCreateAllocatorState_two_roots_meet :
    ¬ CreatesArenas coldMachine 2 0x400000 0x800000 4096 := by
  intro hcreates
  obtain ⟨state, t, he, harenas, hw⟩ := mmCreateAllocatorState_written heapSuffices_two coldMachine
  have hlaid := hcreates.of_eq he
  rw [harenas] at hlaid
  exact not_laidOut_of_two heapSuffices_two hw (by decide) hlaid

end FeralKernel
