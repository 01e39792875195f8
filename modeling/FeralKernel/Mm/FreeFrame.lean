import FeralKernel.Mm.Setup

/-!
# Finding a free frame

`MmLookupFreePhysFrame` of `kern/mm/mmsetup.c` scans the bitmap byte by byte and bit
by bit and puts the address together again by multiplication.  The scan has a far
bound, the number of bytes of memory, but it ends at the first clear bit, and that
is the lowest free frame when there is one.  So frames are handed out in order
until one is given back.
-/

namespace FeralKernel

open Verif.Program Verif.Bytes

/-! ## The scan -/

theorem internalGetValueOfBit_eq (val : BitVec 8) {n : Nat} (hn : n < 8) :
    internalGetValueOfBit val n = val.getLsbD n := by
  have hand : ∀ j, j < 8 → (val &&& (1#8 <<< n)).getLsbD j = (val.getLsbD j && decide (j = n)) := by
    intro j hj
    rw [BitVec.getLsbD_and, bit_shifted hj]
  rw [internalGetValueOfBit]
  cases hb : val.getLsbD n with
  | false =>
    have hzero : val &&& (1#8 <<< n) = 0#8 := by
      apply BitVec.eq_of_getLsbD_eq
      intro j hj
      rw [hand j hj]
      by_cases hjn : j = n
      · simp [hjn, hb]
      · simp [hjn]
    rw [hzero]
    rfl
  | true =>
    have hne : val &&& (1#8 <<< n) ≠ 0#8 := by
      intro hz
      have hbit := hand n hn
      rw [hz, hb] at hbit
      simp at hbit
    simpa using hne

namespace MemoryManagementState

/-- Bit `n` of the bitmap, counted from its first byte. -/
def bit (mm : MemoryManagementState) (m : Mem) (n : Nat) : Bool :=
  (m (phys (mm.bitmaskUsedFrames + BitVec.ofNat 64 (n / 8)))).getLsbD (n % 8)

/-- The address that the scan puts together for bit `n`. -/
def bitLocation (mm : MemoryManagementState) (n : Nat) : Ptr :=
  mm.pAllocInfo.frameSize * BitVec.ofNat 64 (n / 8) * 8 +
    BitVec.ofNat 64 (n % 8) * mm.pAllocInfo.frameSize

end MemoryManagementState

/-- The state has not changed but for the reads that are recorded. -/
def ReadOnly (s t : Machine MmStatics) : Prop := t.mem = s.mem ∧ SameSide s t

theorem ReadOnly.refl (s : Machine MmStatics) : ReadOnly s s := ⟨rfl, SameSide.refl s⟩

/-- `location` belongs to the first clear bit of a byte. -/
def ByteHit (mm : MemoryManagementState) (m : Mem) (block : Nat) (location : Ptr) : Prop :=
  ∃ n, n / 8 = block ∧ mm.bit m n = false ∧
    (∀ k, k / 8 = block → k < n → mm.bit m k = true) ∧ location = mm.bitLocation n

def ByteFull (mm : MemoryManagementState) (m : Mem) (block : Nat) : Prop :=
  ∀ k, k / 8 = block → mm.bit m k = true

/-- The first `n` bytes of the bitmap have been read, and nothing else has happened. -/
structure Scanned (mm : MemoryManagementState) (s : Machine MmStatics) (n : Nat)
    (t : Machine MmStatics) : Prop where
  readOnly : ReadOnly s t
  reads : ∃ new, t.log = new ++ s.log ∧
    ∀ e, e ∈ new ↔ ∃ k, k < n ∧ e = .read (mm.bitmaskUsedFrames + BitVec.ofNat 64 k) 1

theorem Scanned.zero (mm : MemoryManagementState) (s : Machine MmStatics) : Scanned mm s 0 s := by
  refine ⟨ReadOnly.refl s, [], rfl, fun e => ?_⟩
  constructor
  · intro he
    cases he
  · intro he
    obtain ⟨k, hk, -⟩ := he
    exact absurd hk (Nat.not_lt_zero k)

/-- A read of the next byte, or of the last one again. -/
theorem Scanned.note {mm : MemoryManagementState} {s t : Machine MmStatics} {n block : Nat}
    (h : Scanned mm s n t) (hn : n = block ∨ n = block + 1) :
    Scanned mm s (block + 1)
      (t.note (.read (mm.bitmaskUsedFrames + BitVec.ofNat 64 block) 1)) := by
  obtain ⟨⟨hm, hside⟩, new, hnew, hall⟩ := h
  refine ⟨⟨hm, hside⟩, .read (mm.bitmaskUsedFrames + BitVec.ofNat 64 block) 1 :: new, ?_, fun e => ?_⟩
  · rw [Machine.note_log, hnew, List.cons_append]
  · rw [List.mem_cons, hall]
    constructor
    · rintro (he | ⟨k, hk, he⟩)
      · exact ⟨block, by omega, he⟩
      · exact ⟨k, by omega, he⟩
    · rintro ⟨k, hk, he⟩
      by_cases hkb : k = block
      · rw [hkb] at he
        exact Or.inl he
      · exact Or.inr ⟨k, by omega, he⟩

/-- The inner loop: the first clear bit of one byte. -/
theorem scanByte (mm : MemoryManagementState) (s : Machine MmStatics) (block : Nat)
    (t : Machine MmStatics) (ht : Scanned mm s block t) :
    Returns (forCount (fun bit (_ : Unit) => do
      let byte ← load8 (mm.bitmaskUsedFrames + BitVec.ofNat 64 block)
      if internalGetValueOfBit byte bit = false then
        let base := mm.pAllocInfo.frameSize * BitVec.ofNat 64 block * 8
        let offset := BitVec.ofNat 64 bit * mm.pAllocInfo.frameSize
        pure (.inl (base + offset))
      else pure (.inr ())) 8 0 ()) t fun (b : Ptr ⊕ Unit) u => Scanned mm s (block + 1) u ∧
        Sum.elim (ByteHit mm s.mem block) (fun _ => ByteFull mm s.mem block) b := by
  have hsplit : ∀ bit, bit < 8 → (8 * block + bit) / 8 = block ∧ (8 * block + bit) % 8 = bit := by
    intro bit hbit
    omega
  have hvalue : ∀ bit, bit < 8 → mm.bit s.mem (8 * block + bit) = internalGetValueOfBit
      (s.mem (phys (mm.bitmaskUsedFrames + BitVec.ofNat 64 block))) bit := by
    intro bit hbit
    rw [MemoryManagementState.bit, (hsplit bit hbit).1, (hsplit bit hbit).2,
      internalGetValueOfBit_eq _ hbit]
  -- the byte is read anew for each bit
  apply (returns_forCount_first (fun bit u => Scanned mm s (if bit = 0 then block else block + 1) u)
    (fun bit location => internalGetValueOfBit
        (s.mem (phys (mm.bitmaskUsedFrames + BitVec.ofNat 64 block))) bit = false ∧
      location = mm.pAllocInfo.frameSize * BitVec.ofNat 64 block * 8 +
        BitVec.ofNat 64 bit * mm.pAllocInfo.frameSize)
    (fun bit => internalGetValueOfBit
      (s.mem (phys (mm.bitmaskUsedFrames + BitVec.ofNat 64 block))) bit = true)
    ?_ 8 0 t ht).mono
  · intro b u hb
    cases b with
    | inl location =>
      obtain ⟨bit, -, hbit, ⟨hclear, hlocation⟩, hbefore, hscan⟩ := hb
      rw [Nat.zero_add] at hbit
      refine ⟨hscan, 8 * block + bit, (hsplit bit hbit).1, ?_, ?_, ?_⟩
      · rw [hvalue bit hbit, hclear]
      · intro k hk hlt
        have hk' : k = 8 * block + k % 8 := by omega
        rw [hk', hvalue _ (by omega)]
        exact hbefore _ (by omega) (by omega)
      · rw [MemoryManagementState.bitLocation, (hsplit bit hbit).1, (hsplit bit hbit).2, hlocation]
    | inr _ =>
      obtain ⟨hfull, hscan⟩ := hb
      refine ⟨hscan, fun k hk => ?_⟩
      have hk' : k = 8 * block + k % 8 := by omega
      rw [hk', hvalue _ (by omega)]
      exact hfull _ (by omega) (by omega)
  · intro bit u hu
    have hread : Scanned mm s (if bit + 1 = 0 then block else block + 1)
        (u.note (.read (mm.bitmaskUsedFrames + BitVec.ofNat 64 block) 1)) := by
      rw [if_neg (Nat.succ_ne_zero bit)]
      refine hu.note ?_
      by_cases hbit : bit = 0
      · exact Or.inl (if_pos hbit)
      · exact Or.inr (if_neg hbit)
    rw [returns_bind, returns_load8, hu.readOnly.1]
    by_cases hclear : internalGetValueOfBit
        (s.mem (phys (mm.bitmaskUsedFrames + BitVec.ofNat 64 block))) bit = false
    · rw [if_pos hclear, returns_pure]
      exact ⟨hread, hclear, rfl⟩
    · rw [if_neg hclear, returns_pure]
      exact ⟨hread, by simpa using hclear⟩

/-- The whole scan: the first clear bit, if the bytes that are looked at have one. -/
theorem mmLookupFreePhysFrame_scan (s : Machine MmStatics) :
    Returns mmLookupFreePhysFrame s fun r t =>
      (∃ n, n < 8 * s.statics.mmState.maxPAddr.toNat ∧ s.statics.mmState.bit s.mem n = false ∧
          (∀ k, k < n → s.statics.mmState.bit s.mem k = true) ∧
          r = (.success, s.statics.mmState.bitLocation n) ∧
          Scanned s.statics.mmState s (n / 8 + 1) t) ∨
        (∀ k, k < 8 * s.statics.mmState.maxPAddr.toNat → s.statics.mmState.bit s.mem k = true) ∧
          r = (.memoryPageFailure, 0) ∧
          Scanned s.statics.mmState s s.statics.mmState.maxPAddr.toNat t := by
  rw [mmLookupFreePhysFrame, returns_bind, returns_getStatics]
  apply (returns_forCount_first (Scanned s.statics.mmState s) (ByteHit s.statics.mmState s.mem)
    (ByteFull s.statics.mmState s.mem) (scanByte s.statics.mmState s)
    s.statics.mmState.maxPAddr.toNat 0 s (Scanned.zero _ s)).bind
  intro b t hb
  cases b with
  | inl location =>
    obtain ⟨block, -, hblock, ⟨n, hn, hclear, hbyte, hlocation⟩, hbefore, hscan⟩ := hb
    rw [returns_pure]
    refine Or.inl ⟨n, by omega, hclear, fun k hk => ?_, by rw [hlocation], by rw [hn]; exact hscan⟩
    by_cases hkb : k / 8 = block
    · exact hbyte k hkb hk
    · exact hbefore (k / 8) (by omega) (by omega) k rfl
  | inr _ =>
    obtain ⟨hfull, hscan⟩ := hb
    rw [Nat.zero_add] at hscan
    rw [returns_pure]
    refine Or.inr ⟨fun k hk => ?_, rfl, hscan⟩
    exact hfull (k / 8) (by omega) (by omega) k rfl

/-! ## The lowest free frame -/

/-- The lowest free frame whose base is not above `MaxPAddr`. -/
def FrameMap.lowestFree (maxPAddr : Ptr) (f : FrameMap) : Option Nat :=
  (List.range (maxPAddr.toNat / 4096 + 1)).find? fun n => !f n

theorem FrameMap.lowestFree_eq_some {maxPAddr : Ptr} {f : FrameMap} {n : Nat} :
    f.lowestFree maxPAddr = some n ↔
      4096 * n ≤ maxPAddr.toNat ∧ f n = false ∧ ∀ k, k < n → f k = true := by
  rw [FrameMap.lowestFree, List.find?_range_eq_some, List.mem_range]
  simp only [Bool.not_eq_true', Bool.not_not]
  constructor
  · intro h
    exact ⟨by omega, h.1, h.2.2⟩
  · intro h
    exact ⟨h.2.1, by omega, h.2.2⟩

theorem FrameMap.lowestFree_eq_none {maxPAddr : Ptr} {f : FrameMap} :
    f.lowestFree maxPAddr = none ↔ ∀ n, 4096 * n ≤ maxPAddr.toNat → f n = true := by
  rw [FrameMap.lowestFree, List.find?_range_eq_none]
  simp only [Bool.not_not]
  constructor
  · intro h n hn
    exact h n (by omega)
  · intro h n hn
    exact h n (by omega)

theorem bitLocation_eq {mm : MemoryManagementState} (hsize : mm.pAllocInfo.frameSize = 4096)
    (n : Nat) : mm.bitLocation n = BitVec.ofNat 64 (4096 * n) := by
  have hn : 4096 * n = 4096 * (n / 8) * 8 + n % 8 * 4096 := by omega
  rw [MemoryManagementState.bitLocation, hsize, hn, BitVec.ofNat_add, BitVec.ofNat_mul,
    BitVec.ofNat_mul, BitVec.ofNat_mul]
  rfl

theorem Shows.bit_eq {mm : MemoryManagementState} {m : Mem} {f : FrameMap} (hf : Shows mm m f)
    (hsize : mm.pAllocInfo.frameSize = 4096) {n : Nat} (hn : 4096 * n ≤ mm.maxPAddr.toNat) :
    mm.bit m n = f n := by
  have hframe := hf _ (frameBase_le hn)
  rw [frameNumber_frameBase hn] at hframe
  rw [← hframe, MemoryManagementState.frameBit, byteAddr_eq hsize, bitNum_eq hsize,
    frameNumber_frameBase hn, toNat_frameBase hn, MemoryManagementState.bit]
  have hdiv : 4096 * n / 32768 = n / 8 := by omega
  rw [hdiv]

section Lookup

variable {s : Machine MmStatics} {f : FrameMap}

/-- The call finds the lowest free frame. -/
theorem mmLookupFreePhysFrame_some {n : Nat} (h : BitmapValid s.statics.mmState)
    (hf : Shows s.statics.mmState s.mem f) (hmax : 1 ≤ s.statics.mmState.maxPAddr.toNat)
    (hn : f.lowestFree s.statics.mmState.maxPAddr = some n) :
    Returns mmLookupFreePhysFrame s fun r t =>
      ReadOnly s t ∧ r = (.success, BitVec.ofNat 64 (4096 * n)) := by
  obtain ⟨hle, hfree, hlower⟩ := FrameMap.lowestFree_eq_some.mp hn
  have hclear := hf.bit_eq h.frameSize hle
  rw [hfree] at hclear
  apply (mmLookupFreePhysFrame_scan s).mono
  intro r t ht
  obtain ⟨k, -, hk, hbefore, hr, hscan⟩ | ⟨hfull, -⟩ := ht
  · have hkn : k = n := by
      rcases Nat.lt_trichotomy k n with hlt | heq | hgt
      · rw [hf.bit_eq h.frameSize (by omega), hlower k hlt] at hk
        cases hk
      · exact heq
      · rw [hbefore n hgt] at hclear
        cases hclear
    rw [hr, bitLocation_eq h.frameSize, hkn]
    exact ⟨hscan.readOnly, rfl⟩
  · rw [hfull n (by omega)] at hclear
    cases hclear

end Lookup

/-! ## Handing out frames -/

/-- A lookup and the allocation of what it found. -/
def lookupThenAllocate : Kern MmStatics (Option Ptr) := do
  let (status, location) ← mmLookupFreePhysFrame
  if status = .success then
    let r ← mmAllocatePhysFrame location true
    if r = .success then pure (some location) else pure none
  else pure none

/-- What the manager does to the map. -/
def FrameMap.handOut (maxPAddr : Ptr) (f : FrameMap) : Option Ptr × FrameMap :=
  match f.lowestFree maxPAddr with
  | some n => (some (BitVec.ofNat 64 (4096 * n)), Function.update f n true)
  | none => (none, f)

/-- Allocating the lowest free frame takes it. -/
theorem FrameMap.step_lowestFree {maxPAddr : Ptr} {f : FrameMap} {n : Nat}
    (h : f.lowestFree maxPAddr = some n) :
    FrameMap.step maxPAddr f (.allocate (BitVec.ofNat 64 (4096 * n)) true) =
      ((.success, none), Function.update f n true) := by
  obtain ⟨hle, hfree, -⟩ := FrameMap.lowestFree_eq_some.mp h
  rw [FrameMap.step, if_neg (frameBase_le hle), frameNumber_frameBase hle, hfree]
  rfl

/-- With no free frame left, no location can be allocated. -/
theorem FrameMap.step_full {maxPAddr : Ptr} {f : FrameMap} (h : f.lowestFree maxPAddr = none)
    (location : Ptr) :
    (FrameMap.step maxPAddr f (.allocate location true)).1.1 ≠ .success ∧
    (FrameMap.step maxPAddr f (.allocate location true)).2 = f := by
  have hused := FrameMap.lowestFree_eq_none.mp h
  rw [FrameMap.step]
  by_cases hl : maxPAddr < location
  · rw [if_pos hl]
    refine ⟨fun hc => ?_, rfl⟩
    cases hc
  · have hle : 4096 * frameNumber location ≤ maxPAddr.toNat := by
      rw [BitVec.not_lt, BitVec.le_def] at hl
      rw [frameNumber]
      omega
    rw [if_neg hl, if_pos (hused _ hle)]
    refine ⟨fun hc => ?_, rfl⟩
    cases hc

/-- An allocation in a state that a lookup has left. -/
theorem ReadOnly.allocate {s t : Machine MmStatics} {f : FrameMap} (ht : ReadOnly s t)
    (h : BitmapValid s.statics.mmState) (hf : Shows s.statics.mmState s.mem f) (location : Ptr) :
    Returns (mmAllocatePhysFrame location true) t fun r u =>
      (r, none) = (FrameMap.step s.statics.mmState.maxPAddr f (.allocate location true)).1 ∧
      Shows s.statics.mmState u.mem
        (FrameMap.step s.statics.mmState.maxPAddr f (.allocate location true)).2 ∧
      SameSide s u := by
  have hstat := ht.2.1
  have hcall := FrameCall.run_refines (s := t) (f := f) (by rw [hstat]; exact h)
    (by rw [hstat, ht.1]; exact hf) (.allocate location true)
  rw [FrameCall.run, returns_bind, hstat] at hcall
  apply hcall.mono
  intro r u hu
  obtain ⟨hr, hshows, -, -, hside⟩ := returns_pure.mp hu
  exact ⟨hr, hshows, ht.2.trans hside⟩

theorem lookupThenAllocate_refines {s : Machine MmStatics} {f : FrameMap}
    (h : BitmapValid s.statics.mmState) (hf : Shows s.statics.mmState s.mem f)
    (hmax : 1 ≤ s.statics.mmState.maxPAddr.toNat) :
    Returns lookupThenAllocate s fun r t =>
      r = (f.handOut s.statics.mmState.maxPAddr).1 ∧
      Shows s.statics.mmState t.mem (f.handOut s.statics.mmState.maxPAddr).2 ∧
      SameSide s t := by
  rw [lookupThenAllocate, FrameMap.handOut]
  cases hlowest : f.lowestFree s.statics.mmState.maxPAddr with
  | some n =>
    apply (mmLookupFreePhysFrame_some h hf hmax hlowest).bind
    intro r t ht
    obtain ⟨hread, rfl⟩ := ht
    show Returns (if FeralStatus.success = .success then _ else _) t _
    rw [if_pos rfl]
    apply (hread.allocate h hf _).bind
    intro r u hu
    rw [FrameMap.step_lowestFree hlowest] at hu
    obtain ⟨hr, hshows, hside⟩ := hu
    obtain rfl : r = .success := (Prod.mk.inj hr).1
    rw [if_pos rfl, returns_pure]
    exact ⟨rfl, hshows, hside⟩
  | none =>
    apply (mmLookupFreePhysFrame_scan s).bind
    intro r t ht
    have hread : ReadOnly s t := by
      rcases ht with ⟨_, -, -, -, -, hscan⟩ | ⟨-, -, hscan⟩
      · exact hscan.readOnly
      · exact hscan.readOnly
    have hshows : Shows s.statics.mmState t.mem f := by
      rw [hread.1]
      exact hf
    obtain ⟨status, location⟩ := r
    show Returns (if status = .success then _ else _) t _
    by_cases hst : status = .success
    · -- the scan has left the bitmap, and what it found cannot be allocated
      obtain ⟨hfail, hkept⟩ := FrameMap.step_full hlowest location
      rw [if_pos hst]
      apply (hread.allocate h hf location).bind
      intro r u hu
      obtain ⟨hr, hshows', hside⟩ := hu
      rw [← hr] at hfail
      rw [hkept] at hshows'
      rw [if_neg hfail, returns_pure]
      exact ⟨rfl, hshows', hside⟩
    · rw [if_neg hst, returns_pure]
      exact ⟨rfl, hshows, hread.2⟩

/-! ## Runs of requests -/

/-- `take` is a lookup with the allocation of what it found.  Any other call of the
manager may come between two of them. -/
inductive FrameRequest where
  | take
  | call (call : FrameCall)
deriving DecidableEq

/-- A request with what came of it. -/
inductive FrameRecord where
  | handed (location : Option Ptr)
  | called (call : FrameCall) (outcome : Outcome)
deriving DecidableEq

def frameRequests : List FrameRequest → Kern MmStatics (List FrameRecord)
  | [] => pure []
  | .take :: rest => do
    let location ← lookupThenAllocate
    let records ← frameRequests rest
    pure (.handed location :: records)
  | .call call :: rest => do
    let outcome ← call.run
    let records ← frameRequests rest
    pure (.called call outcome :: records)

namespace FrameMap

def request (maxPAddr : Ptr) (f : FrameMap) : FrameRequest → FrameRecord × FrameMap
  | .take => (.handed (f.handOut maxPAddr).1, (f.handOut maxPAddr).2)
  | .call call => (.called call (f.step maxPAddr call).1, (f.step maxPAddr call).2)

def requests (maxPAddr : Ptr) (f : FrameMap) : List FrameRequest → List FrameRecord
  | [] => []
  | r :: rest => (f.request maxPAddr r).1 :: requests maxPAddr (f.request maxPAddr r).2 rest

end FrameMap

theorem frameRequests_refines (reqs : List FrameRequest) : ∀ (s : Machine MmStatics) (f : FrameMap),
    BitmapValid s.statics.mmState → Shows s.statics.mmState s.mem f →
    1 ≤ s.statics.mmState.maxPAddr.toNat →
      Returns (frameRequests reqs) s fun records _ =>
        records = f.requests s.statics.mmState.maxPAddr reqs := by
  induction reqs with
  | nil =>
    intro s f _ _ _
    rw [frameRequests, returns_pure]
    rfl
  | cons r rest ih =>
    intro s f h hf hmax
    -- what follows the first request is a run from the state that it leaves
    have hrest : ∀ (record : FrameRecord) (t : Machine MmStatics) (g : FrameMap),
        Shows s.statics.mmState t.mem g → SameSide s t →
        Returns (frameRequests rest >>= fun records => pure (record :: records)) t
          fun records _ => records = record :: g.requests s.statics.mmState.maxPAddr rest := by
      intro record t g hg hside
      rw [← hside.1] at h hg hmax
      apply (ih t g h hg hmax).bind
      intro records u hu
      rw [returns_pure, hu, hside.1]
    cases r with
    | take =>
      rw [frameRequests]
      apply (lookupThenAllocate_refines h hf hmax).bind
      intro location t ht
      obtain ⟨rfl, hf', hside⟩ := ht
      exact hrest _ t _ hf' hside
    | call call =>
      rw [frameRequests]
      apply (call.run_refines h hf).bind
      intro outcome t ht
      obtain ⟨rfl, hf', -, -, hside⟩ := ht
      exact hrest _ t _ hf' hside

/-- A successful free of frame `n`. -/
def FrameRecord.Frees (n : Nat) : FrameRecord → Prop
  | .called (.allocate location false) outcome =>
    outcome.1 = .success ∧ frameNumber location = n
  | _ => False

/-- A used frame stays used until it is freed. -/
theorem FrameMap.request_used {maxPAddr : Ptr} {f : FrameMap} {r : FrameRequest} {n : Nat}
    (hused : f n = true) (hfree : ¬ (f.request maxPAddr r).1.Frees n) :
    (f.request maxPAddr r).2 n = true := by
  cases r with
  | take =>
    rw [request, handOut]
    cases f.lowestFree maxPAddr with
    | none => exact hused
    | some k =>
      show Function.update f k true n = true
      rw [Function.update_apply]
      split
      · rfl
      · exact hused
  | call call =>
    have hstep := step_eq_givenStatus maxPAddr f call n
    show (f.step maxPAddr call).2 n = true
    rw [hstep]
    cases call with
    | lookup location => exact hused
    | allocate location status =>
      rw [givenStatus]
      by_cases hgiven : (f.step maxPAddr (.allocate location status)).1.1 = .success ∧
          frameNumber location = n
      · rw [if_pos hgiven]
        cases status with
        | true => rfl
        | false => exact absurd hgiven hfree
      · rw [if_neg hgiven]
        exact hused

/-- What is handed out is the lowest free frame, and it is used from then on. -/
theorem FrameMap.request_handed {maxPAddr : Ptr} {f : FrameMap} {r : FrameRequest} {a : Ptr}
    (h : (f.request maxPAddr r).1 = .handed (some a)) :
    a.toNat = 4096 * frameNumber a ∧ f.lowestFree maxPAddr = some (frameNumber a) ∧
      (f.request maxPAddr r).2 = Function.update f (frameNumber a) true := by
  cases r with
  | call call => cases h
  | take =>
    rw [request, handOut] at h ⊢
    cases hlowest : f.lowestFree maxPAddr with
    | none =>
      rw [hlowest] at h
      cases h
    | some n =>
      rw [hlowest] at h
      obtain rfl : BitVec.ofNat 64 (4096 * n) = a := by
        injection h with h
        injection h
      obtain ⟨hle, -, -⟩ := lowestFree_eq_some.mp hlowest
      rw [frameNumber_frameBase hle]
      exact ⟨toNat_frameBase hle, rfl, rfl⟩

/-- Frames that are used and not freed in between are not handed out. -/
theorem FrameMap.requests_handed {maxPAddr : Ptr} (used : Nat → Prop) (b : Ptr)
    (post : List FrameRecord) : ∀ (mid : List FrameRecord) (reqs : List FrameRequest)
    (f : FrameMap), (∀ n, used n → f n = true) →
      f.requests maxPAddr reqs = mid ++ .handed (some b) :: post →
      (∀ r ∈ mid, ∀ n, used n → ¬ r.Frees n) → ¬ used (frameNumber b) := by
  intro mid
  induction mid with
  | nil =>
    intro reqs f hused hrecords _ hb
    cases reqs with
    | nil => cases hrecords
    | cons r rest =>
      obtain ⟨-, hlowest, -⟩ := request_handed (List.cons.inj hrecords).1
      obtain ⟨-, hfree, -⟩ := lowestFree_eq_some.mp hlowest
      rw [hused _ hb] at hfree
      cases hfree
  | cons r mid ih =>
    intro reqs f hused hrecords hmid
    cases reqs with
    | nil => cases hrecords
    | cons req rest =>
      obtain ⟨hhead, htail⟩ := List.cons.inj hrecords
      refine ih rest (f.request maxPAddr req).2 (fun n hn => ?_) htail
        fun r' hr' => hmid r' (List.mem_cons_of_mem _ hr')
      apply request_used (hused n hn)
      rw [hhead]
      exact hmid r (List.mem_cons_self ..) n hn

/-- What has been handed out is the lowest free frame: it and the frames below it are used
in the rest of the run, which starts from some map. -/
theorem FrameMap.requests_split {maxPAddr : Ptr} (a : Ptr) (rest : List FrameRecord) :
    ∀ (pre : List FrameRecord) (reqs : List FrameRequest) (f : FrameMap),
      f.requests maxPAddr reqs = pre ++ .handed (some a) :: rest →
      a.toNat = 4096 * frameNumber a ∧ ∃ (g : FrameMap) (reqs' : List FrameRequest),
        rest = g.requests maxPAddr reqs' ∧ ∀ n, n ≤ frameNumber a → g n = true := by
  intro pre
  induction pre with
  | nil =>
    intro reqs f hrecords
    cases reqs with
    | nil => cases hrecords
    | cons r reqs' =>
      obtain ⟨hhead, htail⟩ := List.cons.inj hrecords
      obtain ⟨hbase, hlowest, hmap⟩ := request_handed hhead
      obtain ⟨-, -, hlower⟩ := lowestFree_eq_some.mp hlowest
      rw [hmap] at htail
      refine ⟨hbase, _, reqs', htail.symm, fun k hk => ?_⟩
      rw [Function.update_apply]
      split
      · rfl
      · exact hlower k (by omega)
  | cons r pre ih =>
    intro reqs f hrecords
    cases reqs with
    | nil => cases hrecords
    | cons req reqs' => exact ih reqs' _ (List.cons.inj hrecords).2

/-- The frames of a record of requests come in order, and none comes again before it is
freed. -/
structure HandsOutInOrder (records : List FrameRecord) : Prop where
  increasing : ∀ pre mid post a b,
    records = pre ++ .handed (some a) :: (mid ++ .handed (some b) :: post) →
    (∀ r ∈ mid, ∀ n, ¬ r.Frees n) → a.toNat < b.toNat
  once : ∀ pre mid post a,
    records = pre ++ .handed (some a) :: (mid ++ .handed (some a) :: post) →
    ∃ r ∈ mid, r.Frees (frameNumber a)

theorem FrameMap.requests_inOrder (maxPAddr : Ptr) (f : FrameMap) (reqs : List FrameRequest) :
    HandsOutInOrder (f.requests maxPAddr reqs) := by
  constructor
  · intro pre mid post a b hrecords hmid
    obtain ⟨ha, g, reqs', hrest, hused⟩ := requests_split a _ pre reqs f hrecords
    have hb := requests_handed (fun n => n ≤ frameNumber a) b post mid reqs' g hused hrest.symm
      fun r hr n _ => hmid r hr n
    rw [frameNumber] at ha hb
    rw [frameNumber] at hb
    omega
  · intro pre mid post a hrecords
    obtain ⟨-, g, reqs', hrest, hused⟩ := requests_split a _ pre reqs f hrecords
    by_contra hnone
    have ha := requests_handed (fun n => n = frameNumber a) a post mid reqs' g
      (fun n hn => hused n (Nat.le_of_eq hn)) hrest.symm
      fun r hr n hn hfree => hnone ⟨r, hr, hn ▸ hfree⟩
    exact ha rfl

/-! ## What the lookup promises -/

/-- The call has found the lowest free frame `n`: the other calls agree. -/
structure FoundLowest (n : Nat) (location : Ptr) (t : Machine MmStatics) : Prop where
  base : location.toNat = 4096 * n
  free : Returns (mmLookupPhysFrame location) t fun r _ => r = (.success, some false)
  lower : ∀ other, frameNumber other < n →
    Returns (mmLookupPhysFrame other) t fun r _ => r = (.success, some true)
  allocates : Returns (mmAllocatePhysFrame location true) t fun r _ => r = .success

/-- In every state of the bitmap with a free frame the lookup finds the lowest one, and
frames that are looked up and allocated come in order over every run of requests. -/
theorem mmLookupFreePhysFrame_hands_out {s : Machine MmStatics}
    (h : BitmapValid s.statics.mmState) (hmax : 1 ≤ s.statics.mmState.maxPAddr.toNat) :
    ((∃ location, ¬ s.statics.mmState.maxPAddr < location ∧ location.toNat % 4096 = 0 ∧
        s.statics.mmState.frameBit s.mem location = false) →
      Returns mmLookupFreePhysFrame s fun r t =>
        ∃ n location, r = (.success, location) ∧ FoundLowest n location t ∧ t.mem = s.mem) ∧
    ∀ reqs, Returns (frameRequests reqs) s fun records _ => HandsOutInOrder records := by
  have hf := h.shows_frames s.mem
  refine ⟨fun hfree => ?_, fun reqs => ?_⟩
  · obtain ⟨location, hl, -, hbit⟩ := hfree
    cases hlowest : (s.statics.mmState.frames s.mem).lowestFree s.statics.mmState.maxPAddr with
    | none =>
      have hle : 4096 * frameNumber location ≤ s.statics.mmState.maxPAddr.toNat := by
        rw [BitVec.not_lt, BitVec.le_def] at hl
        rw [frameNumber]
        omega
      rw [hf location hl, FrameMap.lowestFree_eq_none.mp hlowest _ hle] at hbit
      cases hbit
    | some n =>
      obtain ⟨hle, hclear, hlower⟩ := FrameMap.lowestFree_eq_some.mp hlowest
      apply (mmLookupFreePhysFrame_some h hf hmax hlowest).mono
      intro r t ht
      obtain ⟨⟨hm, hside⟩, hr⟩ := ht
      have hbase := hf _ (frameBase_le hle)
      have hdiv : t.statics.mmState.pAllocInfo.Divides := by
        rw [hside.1]
        exact divides_of_frameSize h.frameSize
      rw [frameNumber_frameBase hle, hclear] at hbase
      refine ⟨n, _, hr, ⟨toNat_frameBase hle, ?_, fun other hother => ?_, ?_⟩, hm⟩
      · rw [returns_mmLookupPhysFrame hdiv, hside.1, hm, MemoryManagementState.lookupFrame,
          if_neg (frameBase_le hle), hbase]
      · have ho : ¬ s.statics.mmState.maxPAddr < other := by
          rw [BitVec.lt_def]
          rw [frameNumber] at hother
          omega
        rw [returns_mmLookupPhysFrame hdiv, hside.1, hm, MemoryManagementState.lookupFrame,
          if_neg ho, hf other ho, hlower _ hother]
      · rw [returns_mmAllocatePhysFrame hdiv, hside.1, hm, if_neg (frameBase_le hle), hbase,
          if_neg (by decide)]
  · apply (frameRequests_refines reqs s _ h hf hmax).mono
    intro records _ hrecords
    rw [hrecords]
    exact FrameMap.requests_inOrder _ _ _

/-- Over 64 KiB with a clear bitmap. -/
theorem smallFrames_hands_out :
    (Returns mmLookupFreePhysFrame smallFrames fun r t =>
      ∃ n location, r = (.success, location) ∧ FoundLowest n location t ∧
        t.mem = smallFrames.mem) ∧
    Returns (frameRequests [.take, .call (.allocate 0 false), .take]) smallFrames
      fun records _ => HandsOutInOrder records := by
  have h := mmLookupFreePhysFrame_hands_out smallFrames_valid (by decide)
  exact ⟨h.1 ⟨0, by decide, rfl, by decide⟩, h.2 _⟩

end FeralKernel
