import FeralKernel.Machine

/-!
# The static state of the memory manager

`CurrentState` of `kern/mm/heap.c` and `MmState` of `kern/mm/mmsetup.c`, with
the fields that code reads.  `pAllocInfo` points at a structure that does not
change after startup, so it is held by value.
-/

namespace FeralKernel

/-- `AllocatorState`.  `NumArenas` is never written and nothing else is read. -/
structure AllocatorState where
  arenas : Ptr
deriving DecidableEq

structure MmPhysicalAllocationInfo where
  frameSize : BitVec 64
  memoryAreaRangeCount : BitVec 64
  ranges : Ptr
deriving DecidableEq

structure MemoryManagementState where
  pAllocInfo : MmPhysicalAllocationInfo
  bitmaskUsedFrames : Ptr
  maxPAddr : BitVec 64
deriving DecidableEq

structure MmStatics where
  currentState : AllocatorState
  mmState : MemoryManagementState
deriving DecidableEq

/-- Cleared memory and statics, as a place to start a concrete run from. -/
def coldMachine : Machine MmStatics where
  mem := fun _ => 0
  log := []
  statics :=
    { currentState := { arenas := 0 }
      mmState :=
        { pAllocInfo := { frameSize := 0, memoryAreaRangeCount := 0, ranges := 0 }
          bitmaskUsedFrames := 0
          maxPAddr := 0 } }

end FeralKernel
