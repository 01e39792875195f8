import FeralKernel.Lib.StringFuncs
import Mathlib.Data.List.Flatten
import Mathlib.Logic.Function.Basic

/-!
# The serial port

`SerialSend` and `SerialRecv` of `drivers/serial/serial.c` and `SerialPrint` of
`kern/lib/kernel_debugfuncs.c`.  What a port answers is outside the machine, so it is any
sequence of bytes, one for each time the port is read.  `SerialSend` looks at the line status
once for each character and passes over the character when the transmitter is busy.
-/

namespace FeralKernel

open Verif.Program Verif.Bytes

/-! ## Ports -/

/-- The input and output ports of the processor. -/
structure Ports where
  /-- What port `p` answers when it is read for the `k`-th time. -/
  answer : BitVec 16 → Nat → BitVec 8
  /-- How often a port has been read. -/
  asked : BitVec 16 → Nat
  /-- What has been written to a port, the oldest byte first. -/
  sent : BitVec 16 → List (BitVec 8)

namespace Ports

def ask (p : Ports) (port : BitVec 16) (n : Nat) : Ports :=
  { p with asked := Function.update p.asked port (p.asked port + n) }

def send (p : Ports) (port : BitVec 16) (l : List (BitVec 8)) : Ports :=
  { p with sent := Function.update p.sent port (p.sent port ++ l) }

/-- The `k`-th answer from now on. -/
def coming (p : Ports) (port : BitVec 16) (k : Nat) : BitVec 8 :=
  p.answer port (p.asked port + k)

@[simp] theorem ask_zero (p : Ports) (port : BitVec 16) : p.ask port 0 = p := by
  rw [ask, Nat.add_zero, Function.update_eq_self]

@[simp] theorem send_nil (p : Ports) (port : BitVec 16) : p.send port [] = p := by
  rw [send, List.append_nil, Function.update_eq_self]

theorem ask_ask (p : Ports) (port : BitVec 16) (n k : Nat) :
    (p.ask port n).ask port k = p.ask port (n + k) := by
  simp only [ask, Function.update_self, Function.update_idem, Nat.add_assoc]

theorem send_send (p : Ports) (port : BitVec 16) (l l' : List (BitVec 8)) :
    (p.send port l).send port l' = p.send port (l ++ l') := by
  simp only [send, Function.update_self, Function.update_idem, List.append_assoc]

/-- Reading and writing do not get in each other's way. -/
theorem ask_send (p : Ports) (port port' : BitVec 16) (l : List (BitVec 8)) (n : Nat) :
    (p.send port l).ask port' n = (p.ask port' n).send port l := rfl

@[simp] theorem send_sent_self (p : Ports) (port : BitVec 16) (l : List (BitVec 8)) :
    (p.send port l).sent port = p.sent port ++ l := Function.update_self _ _ _

@[simp] theorem ask_sent (p : Ports) (port : BitVec 16) (n : Nat) : (p.ask port n).sent = p.sent :=
  rfl

@[simp] theorem coming_send (p : Ports) (port port' : BitVec 16) (l : List (BitVec 8)) (k : Nat) :
    (p.send port l).coming port' k = p.coming port' k := rfl

@[simp] theorem coming_ask (p : Ports) (port : BitVec 16) (n k : Nat) :
    (p.ask port n).coming port k = p.coming port (n + k) := by
  simp only [coming, ask, Function.update_self, Nat.add_assoc]

theorem coming_ask_ne (p : Ports) {port port' : BitVec 16} (h : port' ≠ port) (n k : Nat) :
    (p.ask port n).coming port' k = p.coming port' k := by
  simp only [coming, ask, Function.update_of_ne h]

end Ports

def x86inb (port : BitVec 16) : Kern Ports (BitVec 8) := do
  let ports ← getStatics
  setStatics (ports.ask port 1)
  pure (ports.coming port 0)

def x86outb (port : BitVec 16) (val : BitVec 8) : Kern Ports Unit :=
  modifyStatics (·.send port [val])

/-! ## The code -/

def com1Port : BitVec 16 := 0x3F8

def serialLineStatus (port : BitVec 16) : BitVec 16 := port + 5

def serialSend (port : BitVec 16) (c : Ptr) (len : BitVec 64) : Kern Ports Unit :=
  forRange (fun i _ => do
    let status ← x86inb (serialLineStatus port)
    onlyIf (status &&& (1#8 <<< 5) ≠ 0) do
      let char ← load8 (c + BitVec.ofNat 64 i)
      onlyIf (char = ch '\n') (x86outb port (ch '\r'))
      let char ← load8 (c + BitVec.ofNat 64 i)
      x86outb port char) len.toNat 0 ()

def serialRecv (port : BitVec 16) (amt : BitVec 64) (buf : Ptr) : Kern Ports Unit :=
  forRange (fun i _ => do
    let byte ← x86inb port
    store8 (buf + BitVec.ofNat 64 i) byte) amt.toNat 0 ()

/-- The length stays 0 for a null pointer. -/
def serialPrint (x : Ptr) : Kern Ports Unit := do
  let (_, len) ← kiGetStringLength x
  serialSend com1Port x (len.getD 0)

/-! ## What a send writes -/

/-- A character on the wire: a newline is sent as two bytes. -/
def onWire (c : BitVec 8) : List (BitVec 8) := if c = ch '\n' then [ch '\r', c] else [c]

/-- The `n` characters from `c` on. -/
def textAt (m : Mem) (c : Ptr) (n : Nat) : List (BitVec 8) :=
  (List.range n).map fun i => m (phys (c + BitVec.ofNat 64 i))

/-- The `i`-th line status still to come says that the transmitter is empty. -/
def TransmitterEmpty (p : Ports) (port : BitVec 16) (i : Nat) : Prop :=
  p.coming (serialLineStatus port) i &&& (1#8 <<< 5) ≠ 0

instance (p : Ports) (port : BitVec 16) : DecidablePred (TransmitterEmpty p port) := fun i =>
  inferInstanceAs (Decidable (p.coming (serialLineStatus port) i &&& (1#8 <<< 5) ≠ 0))

/-- The bytes written for the `n` characters from `c` on. -/
def written (m : Mem) (p : Ports) (port : BitVec 16) (c : Ptr) (n : Nat) : List (BitVec 8) :=
  ((List.range n).filter fun i => TransmitterEmpty p port i).flatMap fun i =>
    onWire (m (phys (c + BitVec.ofNat 64 i)))

section Send

variable {s t : Machine Ports} {port : BitVec 16} {c : Ptr} {len : BitVec 64}

theorem onWire_ne_nil (v : BitVec 8) : onWire v ≠ [] := by
  rw [onWire]
  split <;> simp

theorem returns_x86inb {Q : BitVec 8 → Machine Ports → Prop} :
    Returns (x86inb port) s Q ↔
      Q (s.statics.coming port 0) { s with statics := s.statics.ask port 1 } := by
  rw [x86inb, returns_bind, returns_getStatics, returns_bind, returns_setStatics, returns_pure]

theorem returns_x86outb {val : BitVec 8} {Q : Unit → Machine Ports → Prop} :
    Returns (x86outb port val) s Q ↔
      Q () { s with statics := s.statics.send port [val] } := by
  rw [x86outb, returns_modifyStatics]

theorem written_succ (m : Mem) (p : Ports) (port : BitVec 16) (c : Ptr) (n : Nat) :
    written m p port c (n + 1) = written m p port c n ++
      if TransmitterEmpty p port n then onWire (m (phys (c + BitVec.ofNat 64 n))) else [] := by
  rw [written, List.range_succ, List.filter_append, List.flatMap_append, ← written]
  split
  case isTrue h => rw [List.filter_cons_of_pos (by simpa using h), List.filter_nil,
      List.flatMap_singleton]
  case isFalse h => rw [List.filter_cons_of_neg (by simpa using h), List.filter_nil,
      List.flatMap_nil]

/-- `i` characters have been looked at. -/
structure SentUpTo (s : Machine Ports) (port : BitVec 16) (c : Ptr) (i : Nat)
    (t : Machine Ports) : Prop where
  mem : t.mem = s.mem
  ports : t.statics = (s.statics.ask (serialLineStatus port) i).send port
    (written s.mem s.statics port c i)
  reads : Records IsRead s t

/-- What a round does once the transmitter is empty. -/
theorem sendChar_spec (port : BitVec 16) (c : Ptr) (i : Nat) (t : Machine Ports) :
    Returns (do
      let char ← load8 (c + BitVec.ofNat 64 i)
      onlyIf (char = ch '\n') (x86outb port (ch '\r'))
      let char ← load8 (c + BitVec.ofNat 64 i)
      x86outb port char) t fun _ u => u.mem = t.mem ∧
        u.statics = t.statics.send port (onWire (t.mem (phys (c + BitVec.ofNat 64 i)))) ∧
        Records IsRead t u := by
  have hread : IsRead (.read (c + BitVec.ofNat 64 i) 1) := ⟨_, _, rfl⟩
  have hlog : ∀ u : Machine Ports, u.log = .read (c + BitVec.ofNat 64 i) 1 ::
      .read (c + BitVec.ofNat 64 i) 1 :: t.log → Records IsRead t u := fun u hu =>
    ((Records.refl IsRead t).note (u := t.note (.read (c + BitVec.ofNat 64 i) 1)) hread rfl).note
      hread hu
  rw [returns_bind, returns_load8, returns_bind, onWire]
  by_cases hnewline : t.mem (phys (c + BitVec.ofNat 64 i)) = ch '\n'
  · rw [onlyIf_pos hnewline, returns_x86outb, returns_bind, returns_load8, returns_x86outb,
      if_pos hnewline]
    refine ⟨rfl, ?_, hlog _ rfl⟩
    show (t.statics.send port [ch '\r']).send port [t.mem _] = _
    rw [Ports.send_send]
    rfl
  · rw [onlyIf_neg hnewline, returns_pure, returns_bind, returns_load8, returns_x86outb,
      if_neg hnewline]
    exact ⟨rfl, rfl, hlog _ rfl⟩

/-- One line status is read for each character, and if the transmitter is empty the
character is written. -/
theorem serialSend_round {i : Nat} (h : SentUpTo s port c i t) :
    Returns (do
      let status ← x86inb (serialLineStatus port)
      onlyIf (status &&& (1#8 <<< 5) ≠ 0) do
        let char ← load8 (c + BitVec.ofNat 64 i)
        onlyIf (char = ch '\n') (x86outb port (ch '\r'))
        let char ← load8 (c + BitVec.ofNat 64 i)
        x86outb port char) t fun _ u => SentUpTo s port c (i + 1) u := by
  obtain ⟨hmem, hports, hreads⟩ := h
  have hstatus : t.statics.coming (serialLineStatus port) 0 =
      s.statics.coming (serialLineStatus port) i := by
    rw [hports, Ports.coming_send, Ports.coming_ask, Nat.add_zero]
  have hasked : t.statics.ask (serialLineStatus port) 1 =
      (s.statics.ask (serialLineStatus port) (i + 1)).send port
        (written s.mem s.statics port c i) := by
    rw [hports, Ports.ask_send, Ports.ask_ask]
  rw [returns_bind, returns_x86inb, hstatus, hasked]
  by_cases hready : TransmitterEmpty s.statics port i
  · rw [onlyIf_pos (show _ ≠ (0 : BitVec 8) from hready)]
    apply (sendChar_spec port c i _).mono
    rintro _ u ⟨hu, hstatics, hlog⟩
    have hsame : u.mem = s.mem := hu.trans hmem
    refine ⟨hsame, ?_, hreads.trans hlog⟩
    rw [hstatics, ← hu, hsame, Ports.send_send, written_succ, if_pos hready]
  · rw [onlyIf_neg (show ¬ _ ≠ (0 : BitVec 8) from hready), returns_pure]
    refine ⟨hmem, ?_, hreads⟩
    rw [written_succ, if_neg hready, List.append_nil]

/-- Every character has its own line status, and those whose status says busy are lost. -/
theorem serialSend_spec (port : BitVec 16) (c : Ptr) (len : BitVec 64) (s : Machine Ports) :
    Returns (serialSend port c len) s fun _ t => SentUpTo s port c len.toNat t := by
  refine returns_forRange (fun i _ t => SentUpTo s port c i t) len.toNat ?_ len.toNat 0 () s
    (Nat.zero_add _) ⟨rfl, ?_, Records.refl _ s⟩
  · intro i _ t _ h
    exact serialSend_round h
  · rw [Ports.ask_zero]
    exact (Ports.send_nil _ _).symm

/-! ## Sending everything -/

/-- Dropping elements that contribute something shortens the result. -/
theorem flatMap_filter_eq_iff {α β : Type} {p : α → Bool} {f : α → List β} {l : List α}
    (hf : ∀ x ∈ l, f x ≠ []) : (l.filter p).flatMap f = l.flatMap f ↔ ∀ x ∈ l, p x = true := by
  constructor
  · intro h
    induction l with
    | nil =>
      intro x hx
      cases hx
    | cons x l ih =>
      by_cases hp : p x = true
      · rw [List.filter_cons_of_pos hp, List.flatMap_cons, List.flatMap_cons] at h
        have hrest := ih (fun y hy => hf y (List.mem_cons_of_mem x hy)) (List.append_cancel_left h)
        intro y hy
        rcases List.mem_cons.mp hy with rfl | hy
        · exact hp
        · exact hrest y hy
      · rw [List.filter_cons_of_neg hp, List.flatMap_cons] at h
        have hlen := congrArg List.length h
        have hle := (List.filter_sublist (p := p) (l := l)).flatMap f |>.length_le
        have hpos := List.length_pos_iff.mpr (hf x List.mem_cons_self)
        rw [List.length_append] at hlen
        omega
  · intro h
    rw [List.filter_eq_self.mpr h]

theorem written_eq_iff (m : Mem) (p : Ports) (port : BitVec 16) (c : Ptr) (n : Nat) :
    written m p port c n = (textAt m c n).flatMap onWire ↔ ∀ i, i < n → TransmitterEmpty p port i := by
  rw [written, textAt, List.flatMap_map, flatMap_filter_eq_iff (fun i _ => onWire_ne_nil _)]
  simp only [List.mem_range, decide_eq_true_eq]

/-- The text has come out whole if the transmitter was empty at each of its characters. -/
theorem SentUpTo.complete_iff {n : Nat} (h : SentUpTo s port c n t) :
    t.statics.sent port = s.statics.sent port ++ (textAt s.mem c n).flatMap onWire ↔
      ∀ i, i < n → TransmitterEmpty s.statics port i := by
  rw [h.ports, Ports.send_sent_self, Ports.ask_sent, ← written_eq_iff s.mem]
  exact List.append_right_inj _

/-- If the call returns, the bytes it has written to the data port are the characters in
order, with a carriage return before each newline. -/
def SendsAll (port : BitVec 16) (c : Ptr) (len : BitVec 64) (s : Machine Ports) : Prop :=
  Ensures (serialSend port c len) s fun _ t =>
    t.statics.sent port = s.statics.sent port ++ (textAt s.mem c len.toNat).flatMap onWire

theorem sendsAll_iff (port : BitVec 16) (c : Ptr) (len : BitVec 64) (s : Machine Ports) :
    SendsAll port c len s ↔ ∀ i, i < len.toNat → TransmitterEmpty s.statics port i := by
  obtain ⟨_, t, he, ht⟩ := serialSend_spec port c len s
  rw [← ht.complete_iff]
  constructor
  · intro h
    exact h () t he
  · intro h
    exact Returns.ensures (returns_of_eq he h)

/-- `SerialSend` always returns, and it has sent the string if the transmitter was empty at
each of its characters, and only then. -/
theorem serialSend_complete_iff (port : BitVec 16) (c : Ptr) (len : BitVec 64)
    (s : Machine Ports) :
    (Returns (serialSend port c len) s fun _ _ => True) ∧
      (SendsAll port c len s ↔ ∀ i, i < len.toNat → TransmitterEmpty s.statics port i) :=
  ⟨(serialSend_spec port c len s).mono fun _ _ _ => trivial, sendsAll_iff port c len s⟩

/-- A port that never becomes empty, and one letter to send. -/
theorem busy_port_loses_letter :
    ¬ SendsAll com1Port 0x1000 1 (Machine.mk (fun _ => ch 'a') [] ⟨fun _ _ => 0, fun _ => 0,
      fun _ => []⟩) := by
  rw [sendsAll_iff]
  intro h
  exact absurd (h 0 (by decide)) (by decide)

/-! ## Printing a string -/

theorem textAt_cstring {m : Mem} {x : Ptr} {text : List (BitVec 8)} (h : CString m x text) :
    textAt m x text.length = text := by
  refine List.ext_getElem (by simp [textAt]) (fun k hk hk' => ?_)
  simp only [textAt, List.getElem_map, List.getElem_range]
  rw [h.bytes k (by omega), List.getD_eq_getElem _ _ hk']

theorem serialPrint_spec {x : Ptr} {text : List (BitVec 8)} (h : CString s.mem x text) :
    Returns (serialPrint x) s fun _ t => SentUpTo s com1Port x text.length t := by
  rw [serialPrint]
  apply (kiGetStringLength_reads h).bind
  rintro _ t ⟨rfl, hmem, hside, hreads⟩
  apply (serialSend_spec com1Port x (BitVec.ofNat 64 text.length) t).mono
  intro _ u hu
  have hshort := h.short
  obtain ⟨humem, huports, hureads⟩ := hu
  rw [BitVec.toNat_ofNat, Nat.mod_eq_of_lt hshort, hmem, hside.1] at huports
  exact ⟨humem.trans hmem, huports, (hreads.mono fun _ => LoadsFrom.isRead).trans hureads⟩

/-- A printed string comes out whole if the transmitter is empty at each character. -/
theorem serialPrint_complete_iff {x : Ptr} {text : List (BitVec 8)} (h : CString s.mem x text) :
    (Returns (serialPrint x) s fun _ t =>
      t.statics.sent com1Port = s.statics.sent com1Port ++ text.flatMap onWire) ↔
        ∀ i, i < text.length → TransmitterEmpty s.statics com1Port i := by
  obtain ⟨_, t, he, ht⟩ := serialPrint_spec h
  rw [← ht.complete_iff, textAt_cstring h]
  constructor
  · intro hall
    exact hall.of_eq he
  · intro hall
    exact returns_of_eq he hall

/-! ## Receiving -/

/-- The next `n` bytes that a port answers. -/
def incoming (p : Ports) (port : BitVec 16) (n : Nat) : List (BitVec 8) :=
  (List.range n).map (p.coming port)

/-- The bytes are taken one after the other, whether any have come in or not. -/
theorem serialRecv_spec {buf : Ptr} {amt : BitVec 64} (hspan : Spans buf amt.toNat)
    (port : BitVec 16) (s : Machine Ports) :
    Returns (serialRecv port amt buf) s fun _ t =>
      t.mem = block s.mem (phys buf) (incoming s.statics port amt.toNat) ∧
        t.statics = s.statics.ask port amt.toNat ∧ Records (StoresTo buf amt.toNat) s t := by
  refine returns_forRange (fun i _ t =>
    t.mem = block s.mem (phys buf) (incoming s.statics port i) ∧
      t.statics = s.statics.ask port i ∧ Records (StoresTo buf amt.toNat) s t) amt.toNat ?_
    amt.toNat 0 () s (Nat.zero_add _) ⟨(block_nil _ _).symm, (Ports.ask_zero _ _).symm,
      Records.refl _ s⟩
  intro i _ t hi h
  obtain ⟨hmem, hports, hrec⟩ := h
  have hlen : (incoming s.statics port i).length = i := by
    rw [incoming, List.length_map, List.length_range]
  rw [returns_bind, returns_x86inb, returns_store8, hports, Ports.coming_ask, Ports.ask_ask]
  refine ⟨?_, rfl, hrec.note (e := .write (buf + BitVec.ofNat 64 i) 1) ⟨i, hi, rfl⟩ rfl⟩
  show write8 t.mem (phys (buf + BitVec.ofNat 64 i)) _ = _
  have hblock := write8_block s.mem (phys buf) (incoming s.statics port i)
    (s.statics.coming port (i + 0))
  rw [hlen] at hblock
  rw [phys_add hspan hi, hmem, hblock, Nat.add_zero]
  simp only [incoming, List.range_succ, List.map_append, List.map_cons, List.map_nil]

end Send

end FeralKernel
