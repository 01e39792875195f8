import FeralKernel.Lib.MemFuncs
import FeralKernel.Mm.State

/-!
# The kernel heap

`kern/mm/heap.c`.  The nodes live in the heap itself and are linked by address,
so they are read and written through memory at the offsets of `struct Node` and
`struct Arena`.  `Node` is 48 bytes (two 32-bit flags and five 64-bit fields) and
`Arena` is 32.
-/

namespace FeralKernel

open Verif.Program Verif.Bytes

variable {σ : Type}

def allocBlockSize : BitVec 64 := 128

namespace Node

def size : BitVec 64 := 48

def used (n : Ptr) : Ptr := n + 0#64
def last (n : Ptr) : Ptr := n + 4#64
def area (n : Ptr) : Ptr := n + 8#64
def nodeIndex (n : Ptr) : Ptr := n + 16#64
def previous (n : Ptr) : Ptr := n + 24#64
def next (n : Ptr) : Ptr := n + 32#64
def chunkIncrement (n : Ptr) : Ptr := n + 40#64

end Node

namespace Arena

def byteSize : BitVec 64 := 32

def size (a : Ptr) : Ptr := a + 0#64
def threadIndex (a : Ptr) : Ptr := a + 8#64
def root (a : Ptr) : Ptr := a + 16#64
def nextToAllocate (a : Ptr) : Ptr := a + 24#64

end Arena

def internalInitializeNode (current previous next : Ptr) (index : BitVec 64) : Kern σ Unit := do
  store32 (Node.used current) 0
  store64 (Node.previous current) previous
  if previous ≠ 0 then
    store64 (Node.next previous) current
    -- `VOID *` arithmetic: the area moves on by one byte
    let area ← load64 (Node.area previous)
    store64 (Node.area current) (area + 1)
  store64 (Node.next current) next
  if next ≠ 0 then
    store64 (Node.previous next) current
  store64 (Node.nodeIndex current) index

/-- The body of the loop in `MmCreateAllocatorState`. -/
def initializeArena (numArenas heapAmount : BitVec 64) (arenaStart : Ptr) (nodeSize : BitVec 64)
    (counter : BitVec 64) : Kern σ Unit := do
  let arena := arenaStart + Arena.byteSize * counter
  let reinterpretHeap := arena + Arena.byteSize * numArenas
  let root := reinterpretHeap
  internalInitializeNode root 0 0 0
  -- `UINT_PTR *` arithmetic: eight bytes a step
  store64 (Node.area root) (reinterpretHeap + 8 * nodeSize + 8)
  let nextToAllocate := root + Node.size
  let _ ← kiSetMemoryBytes nextToAllocate 0 Node.size
  store64 (Node.previous nextToAllocate) root
  store64 (Arena.size arena) (heapAmount / numArenas)
  store64 (Arena.threadIndex arena) counter
  store64 (Arena.root arena) root
  store64 (Arena.nextToAllocate arena) nextToAllocate

def mmCreateAllocatorState (numArenas : BitVec 64) (heapArea : Ptr) (heapSize : BitVec 64) :
    Kern MmStatics AllocatorState := do
  let _ ← kiSetMemoryBytes heapArea 0 heapSize
  let heapAmount ← divide heapSize numArenas
  let arenaStart := kernPhysToVirt heapArea
  let nodeSize ← divide heapAmount (numArenas * Node.size)
  forRange (fun i _ => initializeArena numArenas heapAmount arenaStart nodeSize
    (BitVec.ofNat 64 i)) numArenas.toNat 0 ()
  let state : AllocatorState := { arenas := arenaStart }
  let statics ← getStatics
  setStatics { statics with currentState := state }
  pure state

/-- The inner loop of the worst case: are the nodes from `indexer` on unused?
The count keeps going after the loop, so it is returned too. -/
def adjacentUnused (requiredNodes : BitVec 64) (indexer : Ptr) : Kern σ (Bool × BitVec 64) :=
  iterate .hang (fun (sub, count) => do
    if count < requiredNodes then
      let last ← load32 (Node.last sub)
      if last ≠ 1 then
        let used ← load32 (Node.used sub)
        if used ≠ 0 then pure (.inl (false, count + 1))
        else
          let next ← load64 (Node.next sub)
          pure (.inr (next, count + 1))
      else pure (.inl (true, count + 1))
    else pure (.inl (true, count + 1))) loopBound (indexer, 0#64)

/-- The marking loop of the worst case, which goes on from the count above. -/
def markUsed (requiredNodes : BitVec 64) (current : Ptr) (count : BitVec 64) : Kern σ Unit :=
  iterate .hang (fun (sub, count) => do
    if count < requiredNodes then
      let last ← load32 (Node.last sub)
      if last ≠ 1 then
        store32 (Node.used sub) 1
        let next ← load64 (Node.next sub)
        pure (.inr (next, count + 1))
      else pure (.inl ())
    else pure (.inl ())) loopBound (current, count)

def internalMmWorstCaseMalloc (curArena : Ptr) (size : BitVec 64) : Kern σ Ptr := do
  let requiredNodes := size / allocBlockSize + 1
  let root ← load64 (Arena.root curArena)
  iterate .hang (fun indexer => do
    let last ← load32 (Node.last indexer)
    if last ≠ 1 then
      let used ← load32 (Node.used indexer)
      if used ≠ 0 then
        let next ← load64 (Node.next indexer)
        pure (.inr next)
      else
        let (okay, count) ← adjacentUnused requiredNodes indexer
        if okay then
          let previous ← load64 (Node.previous indexer)
          let next ← load64 (Node.next indexer)
          let index ← load64 (Node.nodeIndex previous)
          internalInitializeNode indexer previous next (index + 1)
          markUsed requiredNodes indexer count
          let area ← load64 (Node.area indexer)
          pure (.inl area)
        else
          let next ← load64 (Node.next indexer)
          pure (.inr next)
    else pure (.inl 0)) loopBound root

/-- The loop of the fast path.  `Indexer` is a `Node **`: it starts at the local
variable `Attempt`, which is `none`, and moves on to `Next` fields. -/
def markAttempt (attempt : Ptr) (blockIncrement : BitVec 64) : Kern σ Unit :=
  let deref : Option Ptr → Kern σ Ptr := fun indexer =>
    match indexer with
    | none => pure attempt
    | some a => load64 a
  iterate .hang (fun (indexer, increment) => do
    let node ← deref indexer
    if node ≠ 0 ∧ increment + 1 < blockIncrement then
      store32 (Node.used (← deref indexer)) 1
      let node ← deref indexer
      pure (.inr (some (Node.next node), increment + 1))
    else pure (.inl ())) loopBound ((none : Option Ptr), 0#64)

def mmKernelMalloc (size : BitVec 64) : Kern MmStatics Ptr := do
  let currentThread := 0#64
  let threadArena := (← getStatics).currentState.arenas + Arena.byteSize * currentThread
  let attempt ← load64 (Arena.nextToAllocate threadArena)
  let last ← if attempt ≠ 0 then load32 (Node.last attempt) else pure 0
  if last ≠ 0 then internalMmWorstCaseMalloc threadArena size
  else
    let blockIncrement := size % allocBlockSize + 1
    markAttempt attempt blockIncrement
    store64 (Node.chunkIncrement attempt) blockIncrement
    let previous ← load64 (Node.previous attempt)
    let next ← load64 (Node.next attempt)
    let index ← load64 (Node.nodeIndex previous)
    internalInitializeNode attempt previous next (index + 1)
    load64 (Node.area attempt)

end FeralKernel
