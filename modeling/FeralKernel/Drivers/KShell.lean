import FeralKernel.Drivers.Serial
import FeralKernel.Lib.MemRegions

/-!
# The serial shell prompt

`SerialDoKShellPrompt` of `drivers/serial/kshell/kshell.c`.  It reads a command from the first
serial port up to a newline.  The index into the command buffer is only advanced when it is
not zero, and it starts at zero.
-/

namespace FeralKernel

open Verif.Program Verif.Bytes

/-! ## The code -/

def promptLen : BitVec 64 := 8

/-- The body of the loop, with the condition in front. -/
def promptRound (cmdBuffer curChar : Ptr) (index : BitVec 16) :
    Kern Ports (Unit ⊕ BitVec 16) := do
  let cur ← load8 curChar
  if cur ≠ ch '\n' then
    serialRecv com1Port 1 curChar
    let cur ← load8 curChar
    store8 (cmdBuffer + index.setWidth 64) cur
    let index := if index ≠ 0 then index + 1 else index
    pure (.inr (index % 1024))
  else pure (.inl ())

/-- What comes before the loop. -/
def startPrompt (prompt cmdBuffer curChar : Ptr) : Kern Ports Unit := do
  serialSend com1Port prompt promptLen
  let _ ← kiSetMemoryBytes cmdBuffer 0 1024
  store8 curChar 0

/-- `curChar` is the address of the local variable. -/
def serialDoKShellPrompt (prompt cmdBuffer curChar : Ptr) : Kern Ports Unit := do
  startPrompt prompt cmdBuffer curChar
  iterate .hang (promptRound cmdBuffer curChar) loopBound 0

/-! ## The loop -/

/-- The command buffer is in one piece and the local variable is not in it. -/
structure PromptSpace (cmdBuffer curChar : Ptr) : Prop where
  buffer : Spans cmdBuffer 1024
  apart : phys curChar < phys cmdBuffer ∨ phys cmdBuffer + 1024 ≤ phys curChar

/-- The `k`-th byte that comes in on the port. -/
def received (s : Machine Ports) (k : Nat) : BitVec 8 := s.statics.coming com1Port k

/-- What the local variable is after `k` bytes. -/
def lastByte (s : Machine Ports) (k : Nat) : BitVec 8 := if k = 0 then 0 else received s (k - 1)

/-- A write goes to the command buffer or to the local variable. -/
def PromptWrites (cmdBuffer curChar : Ptr) (e : Event) : Prop :=
  ∀ a n, e = .write a n →
    (∃ k, k + n ≤ 1024 ∧ a = cmdBuffer + BitVec.ofNat 64 k) ∨ (a = curChar ∧ n = 1)

/-- The head of the loop after `k` bytes.  All of them have gone to the first byte of the
buffer. -/
structure TypedSoFar (s : Machine Ports) (cmdBuffer curChar : Ptr) (k : Nat) (index : BitVec 16)
    (t : Machine Ports) : Prop where
  index : index = 0
  cur : t.mem (phys curChar) = lastByte s k
  buffer : ∀ i, i < 1024 → t.mem (phys cmdBuffer + i) = if i = 0 then lastByte s k else 0
  ports : ∀ j, t.statics.coming com1Port j = received s (k + j)
  writes : Records (PromptWrites cmdBuffer curChar) s t

section Prompt

variable {s t : Machine Ports} {prompt cmdBuffer curChar : Ptr} {index : BitVec 16} {k : Nat}

theorem lastByte_succ (s : Machine Ports) (k : Nat) : lastByte s (k + 1) = received s k := by
  rw [lastByte, if_neg (by omega), Nat.add_sub_cancel]

theorem lastByte_zero_ne (s : Machine Ports) : lastByte s 0 ≠ ch '\n' := by
  rw [lastByte, if_pos rfl]
  decide

theorem IsRead.promptWrites {e : Event} (h : IsRead e) : PromptWrites cmdBuffer curChar e := by
  obtain ⟨a, n, rfl⟩ := h
  intro a' n' he
  cases he

theorem promptWrites_curChar {e : Event} (h : StoresTo curChar 1 e) :
    PromptWrites cmdBuffer curChar e := by
  obtain ⟨k, hk, rfl⟩ := h
  intro a n he
  cases he
  have hzero : k = 0 := by omega
  rw [hzero]
  exact Or.inr ⟨BitVec.add_zero curChar, rfl⟩

theorem promptWrites_cmdBuffer {e : Event} (h : StoresTo cmdBuffer 1024 e) :
    PromptWrites cmdBuffer curChar e := by
  obtain ⟨k, hk, rfl⟩ := h
  intro a n he
  cases he
  exact Or.inl ⟨k, by omega, rfl⟩

theorem storesTo_first (a : Ptr) {n : Nat} (hn : 0 < n) : StoresTo a n (.write a 1) :=
  ⟨0, hn, by rw [show a + BitVec.ofNat 64 0 = a from BitVec.add_zero a]⟩

theorem spans_one (a : Ptr) : Spans a 1 := by
  have hlt := a.isLt
  unfold Spans
  omega

/-- One byte. -/
theorem serialRecv_byte (port : BitVec 16) (buf : Ptr) (t : Machine Ports) :
    Returns (serialRecv port 1 buf) t fun _ u =>
      u.mem = write8 t.mem (phys buf) (t.statics.coming port 0) ∧
        u.statics = t.statics.ask port 1 ∧ Records (StoresTo buf 1) t u := by
  have hone : (1 : BitVec 64).toNat = 1 := rfl
  apply (serialRecv_spec (by rw [hone]; exact spans_one buf) port t).mono
  rintro _ u ⟨hmem, hports, hstores⟩
  rw [hone] at hmem hports hstores
  refine ⟨?_, hports, hstores⟩
  have hblock := write8_block t.mem (phys buf) [] (t.statics.coming port 0)
  rw [block_nil, List.length_nil, Nat.add_zero, List.nil_append] at hblock
  rw [hmem, hblock, incoming, List.range_one, List.map_cons, List.map_nil]

theorem startPrompt_spec (hspace : PromptSpace cmdBuffer curChar) (prompt : Ptr)
    (s : Machine Ports) :
    Returns (startPrompt prompt cmdBuffer curChar) s fun _ t =>
      TypedSoFar s cmdBuffer curChar 0 0 t := by
  have hset : setBytes 1024 = 1024 := setBytes_eq_self (by decide)
  rw [startPrompt]
  apply (serialSend_spec com1Port prompt promptLen s).bind
  intro _ t ht
  obtain ⟨-, hports, hreads⟩ := ht
  apply (kiSetMemoryBytes_records (by rw [hset]; exact hspace.buffer) (by decide)).bind
  rintro _ u ⟨-, hmem, hside, hstores⟩
  rw [hset] at hmem hstores
  have hwrites : Records (PromptWrites cmdBuffer curChar) s u :=
    (hreads.mono fun _ => IsRead.promptWrites).trans
      (hstores.mono fun _ => promptWrites_cmdBuffer)
  rw [returns_store8]
  refine ⟨rfl, write8_same _ _ _, fun i hi => ?_, fun j => ?_,
    hwrites.note (promptWrites_curChar (storesTo_first curChar (by decide))) rfl⟩
  · have hapart := hspace.apart
    show write8 u.mem _ _ _ = _
    rw [write8_outside (by omega), hmem, fill_inside (by omega)]
    split <;> rfl
  · show u.statics.coming com1Port j = _
    rw [hside.1, hports, Ports.coming_send, Ports.coming_ask_ne _ (by decide), Nat.zero_add]
    rfl

/-- A round takes one byte and leaves the index at zero. -/
theorem promptRound_spec (hspace : PromptSpace cmdBuffer curChar)
    (h : TypedSoFar s cmdBuffer curChar k index t) :
    Returns (promptRound cmdBuffer curChar index) t fun r u =>
      (lastByte s k ≠ ch '\n' ∧ ∃ next, r = .inr next ∧
        TypedSoFar s cmdBuffer curChar (k + 1) next u) ∨
      (lastByte s k = ch '\n' ∧ r = .inl () ∧ u.mem = t.mem) := by
  obtain ⟨rfl, hcur, hbuffer, hports, hwrites⟩ := h
  have hread : ∀ a, PromptWrites cmdBuffer curChar (.read a 1) := fun a =>
    IsRead.promptWrites ⟨a, 1, rfl⟩
  rw [promptRound, returns_bind, returns_load8, hcur]
  by_cases hend : lastByte s k = ch '\n'
  · rw [if_neg (by simpa using hend), returns_pure]
    exact Or.inr ⟨hend, rfl, rfl⟩
  · rw [if_pos hend]
    apply (serialRecv_byte com1Port curChar _).bind
    rintro _ u ⟨hmem, hasked, hlog⟩
    have hnew : u.mem = write8 t.mem (phys curChar) (received s k) := by
      rw [hmem, Machine.note_statics, hports 0, Nat.add_zero, Machine.note_mem]
    have hcur' : u.mem (phys curChar) = received s k := by rw [hnew, write8_same]
    have hstored : Records (PromptWrites cmdBuffer curChar) s u :=
      (hwrites.note (e := .read curChar 1) (hread _) rfl).trans
        (hlog.mono fun _ => promptWrites_curChar)
    have hzero : cmdBuffer + (0 : BitVec 16).setWidth 64 = cmdBuffer := by simp
    rw [returns_bind, returns_load8, returns_bind, returns_store8, returns_pure, hzero,
      hcur']
    refine Or.inl ⟨hend, _, rfl, by simp, ?_, ?_, ?_, ?_⟩
    · show write8 u.mem (phys cmdBuffer) _ (phys curChar) = _
      have hapart := hspace.apart
      rw [write8_outside (by omega), hcur', lastByte_succ]
    · intro i hi
      show write8 u.mem (phys cmdBuffer) _ (phys cmdBuffer + i) = _
      have hapart := hspace.apart
      by_cases hi0 : i = 0
      · rw [hi0, if_pos rfl, Nat.add_zero, write8_same, lastByte_succ]
      · rw [if_neg hi0, write8_outside (by omega), hnew, write8_outside (by omega), hbuffer i hi,
          if_neg hi0]
    · intro j
      show u.statics.coming com1Port j = _
      rw [hasked, Machine.note_statics, Ports.coming_ask, hports, Nat.add_assoc]
    · have hloaded := hstored.note (u := u.note (.read curChar 1)) (hread curChar) rfl
      exact hloaded.note (promptWrites_cmdBuffer (storesTo_first cmdBuffer (by decide))) rfl

/-- The loop ends behind the first newline, with the newline in the first byte. -/
theorem serialDoKShellPrompt_run (hspace : PromptSpace cmdBuffer curChar) {n : Nat}
    (hn : n < 1024) (hnewline : received s n = ch '\n')
    (hbefore : ∀ k, k < n → received s k ≠ ch '\n') (prompt : Ptr) :
    Returns (serialDoKShellPrompt prompt cmdBuffer curChar) s fun _ t =>
      ∀ i, i < 1024 → t.mem (phys cmdBuffer + i) = if i = 0 then ch '\n' else 0 := by
  have hlast : lastByte s (n + 1) = ch '\n' := by rw [lastByte_succ, hnewline]
  have hearlier : ∀ j, j ≤ n → lastByte s j ≠ ch '\n' := by
    intro j hj
    cases j with
    | zero => exact lastByte_zero_ne s
    | succ j =>
      rw [lastByte_succ]
      exact hbefore j (by omega)
  rw [serialDoKShellPrompt]
  apply (startPrompt_spec hspace prompt s).bind
  intro _ t0 h0
  refine returns_iterate (fun k index t => ∃ j, j + k = n + 1 ∧
    TypedSoFar s cmdBuffer curChar j index t) ?_ loopBound (n + 1) 0 t0 ?_ ⟨0, Nat.zero_add _, h0⟩
  · rintro k index t ⟨j, hj, h⟩
    have hbuffer := h.buffer
    apply (promptRound_spec hspace h).mono
    rintro r u (⟨hne, next, rfl, hnext⟩ | ⟨heq, rfl, hmem⟩)
    · have hk : k ≠ 0 := by
        rintro rfl
        rw [Nat.add_zero] at hj
        rw [hj] at hne
        exact hne hlast
      exact ⟨k - 1, by omega, j + 1, by omega, hnext⟩
    · intro i hi
      rw [hmem, hbuffer i hi, heq]
  · rw [loopBound]
    omega

/-! ## Keeping the command -/

/-- The first newline is at position `n` of the stream. -/
def FirstNewline (s : Machine Ports) (n : Nat) : Prop :=
  received s n = ch '\n' ∧ ∀ k, k < n → received s k ≠ ch '\n'

/-- A command that fits is in the buffer when the loop ends, newline included, with zeros
behind it. -/
def KeepsCommand (s : Machine Ports) (prompt cmdBuffer curChar : Ptr) : Prop :=
  ∀ n, n < 1024 → FirstNewline s n →
    Returns (serialDoKShellPrompt prompt cmdBuffer curChar) s fun _ t =>
      ∀ i, i < 1024 →
        t.mem (phys (cmdBuffer + BitVec.ofNat 64 i)) = if i ≤ n then received s i else 0

/-- However long the command is, the index and the writes stay inside the buffer. -/
def StaysInside (s : Machine Ports) (prompt cmdBuffer curChar : Ptr) : Prop :=
  ∀ s₀, startPrompt prompt cmdBuffer curChar s = .ok ((), s₀) → ∀ index t,
    Rounds (promptRound cmdBuffer curChar) 0 s₀ index t →
      index.toNat < 1024 ∧ Records (PromptWrites cmdBuffer curChar) s t

theorem staysInside (hspace : PromptSpace cmdBuffer curChar) (s : Machine Ports) (prompt : Ptr) :
    StaysInside s prompt cmdBuffer curChar := by
  intro s₀ hstart index t hrounds
  have h0 : TypedSoFar s cmdBuffer curChar 0 0 s₀ := (startPrompt_spec hspace prompt s).of_eq hstart
  have hkept : ∃ k, TypedSoFar s cmdBuffer curChar k index t := by
    refine hrounds.invariant (fun b u => ∃ k, TypedSoFar s cmdBuffer curChar k b u) ⟨0, h0⟩ ?_
    rintro b u ⟨k, h⟩
    refine ((promptRound_spec hspace h).mono ?_).ensures
    rintro r u' (⟨-, next, rfl, hnext⟩ | ⟨-, rfl, -⟩) b' hb
    · cases hb
      exact ⟨k + 1, hnext⟩
    · cases hb
  obtain ⟨k, hk⟩ := hkept
  rw [hk.index]
  exact ⟨by decide, hk.writes⟩

theorem keepsCommand_iff (hspace : PromptSpace cmdBuffer curChar) (s : Machine Ports)
    (prompt : Ptr) :
    KeepsCommand s prompt cmdBuffer curChar ↔ ∀ n, n < 1024 → FirstNewline s n → n = 0 := by
  constructor
  · intro h n hn hfirst
    by_contra hne
    obtain ⟨hnewline, hbefore⟩ := hfirst
    obtain ⟨_, t, he, ht⟩ := serialDoKShellPrompt_run hspace hn hnewline hbefore prompt
    have hbyte := (h n hn ⟨hnewline, hbefore⟩).of_eq he 0 (by omega)
    rw [phys_add hspace.buffer (by omega), ht 0 (by omega), if_pos rfl,
      if_pos (Nat.zero_le n)] at hbyte
    exact hbefore 0 (by omega) hbyte.symm
  · intro h n hn hfirst
    obtain rfl := h n hn hfirst
    apply (serialDoKShellPrompt_run hspace hn hfirst.1 hfirst.2 prompt).mono
    intro _ t ht i hi
    rw [phys_add hspace.buffer hi, ht i hi]
    by_cases hzero : i = 0
    · rw [if_pos hzero, if_pos (by omega), hzero, hfirst.1]
    · rw [if_neg hzero, if_neg (by omega)]

/-- A command is kept if it is the newline alone, and only then.  The index never leaves the
buffer. -/
theorem serialDoKShellPrompt_iff (hspace : PromptSpace cmdBuffer curChar) (s : Machine Ports)
    (prompt : Ptr) :
    (KeepsCommand s prompt cmdBuffer curChar ∧ StaysInside s prompt cmdBuffer curChar) ↔
      ∀ n, n < 1024 → FirstNewline s n → n = 0 := by
  rw [keepsCommand_iff hspace]
  exact ⟨And.left, fun h => ⟨h, staysInside hspace s prompt⟩⟩

/-- A serial port on which a text comes in, and zeros behind it. -/
def typing (text : List (BitVec 8)) : Machine Ports :=
  ⟨fun _ => 0, [], ⟨fun _ k => text.getD k 0, fun _ => 0, fun _ => []⟩⟩

theorem promptSpace_low : PromptSpace 0x3000 0x5000 := by
  refine ⟨?_, ?_⟩
  · unfold Spans
    decide
  · exact Or.inr (by decide)

theorem serialDoKShellPrompt_iff_newline :
    (KeepsCommand (typing [ch '\n']) 0x2000 0x3000 0x5000 ∧
        StaysInside (typing [ch '\n']) 0x2000 0x3000 0x5000) ↔
      ∀ n, n < 1024 → FirstNewline (typing [ch '\n']) n → n = 0 :=
  serialDoKShellPrompt_iff promptSpace_low _ _

/-- One letter and a newline. -/
theorem letter_not_kept :
    ¬ (KeepsCommand (typing [ch 'a', ch '\n']) 0x2000 0x3000 0x5000 ∧
      StaysInside (typing [ch 'a', ch '\n']) 0x2000 0x3000 0x5000) := by
  rintro ⟨hkeeps, -⟩
  have hzero := (keepsCommand_iff promptSpace_low _ _).mp hkeeps 1 (by decide)
    ⟨by decide, fun k hk => ?_⟩
  · exact absurd hzero (by decide)
  · obtain rfl : k = 0 := by omega
    decide

end Prompt

end FeralKernel
