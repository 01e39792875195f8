import Mathlib.Data.List.FinRange
import Mathlib.Data.List.Flatten
import Mathlib.Tactic.Common

/-!
# The interrupt controllers, the timer and the keyboard

What `kern/arch/x86_64/archstart.c` and `interrupts.c` talk to through ports, as the
hardware is documented: the two 8259 interrupt controllers, of which the second is wired to
line 2 of the first, channel 0 of the 8253 timer, and the keyboard controller, which raises
line 1 when a byte becomes available.

Devices do not wait for the processor.  What they are going to do is a list of bursts, any
list at all, and a burst happens before each access to a port.  So a statement about every
such list is one about every interleaving of the devices with the code.
-/

namespace FeralKernel

/-! ## An 8259 -/

/-- The words that a controller waits for on its data port, once it has been told to
initialise. -/
inductive PicWord where
  | base
  | cascade
  | mode
deriving DecidableEq, Repr

structure Pic where
  base : BitVec 8
  cascade : BitVec 8
  mode : BitVec 8
  mask : BitVec 8
  request : BitVec 8
  service : BitVec 8
  awaiting : List PicWord
deriving DecidableEq, Repr

namespace Pic

/-- A write to the command port.  Bit 4 starts an initialisation, which forgets the requests,
and `0x20` ends the interrupt in service with the highest priority, the lowest line. -/
def command (p : Pic) (v : BitVec 8) : Pic :=
  if v &&& 0x10 ≠ 0 then
    { p with
      mode := 0
      mask := 0
      request := 0
      service := 0
      awaiting := .base :: ((if v &&& 0x02 = 0 then [.cascade] else []) ++
        (if v &&& 0x01 ≠ 0 then [.mode] else [])) }
  else if v = 0x20 then { p with service := p.service &&& (p.service - 1) }
  else p

/-- A write to the data port. -/
def data (p : Pic) (v : BitVec 8) : Pic :=
  match p.awaiting with
  | [] => { p with mask := v }
  | .base :: rest => { p with base := v &&& 0xF8, awaiting := rest }
  | .cascade :: rest => { p with cascade := v, awaiting := rest }
  | .mode :: rest => { p with mode := v, awaiting := rest }

/-- A device pulls a line. -/
def raise (p : Pic) (line : Nat) : Pic := { p with request := p.request ||| BitVec.twoPow 8 line }

/-- With these lines pulled, line `i` is the one to be served: it is not masked, and no line
of its priority or a higher one is in service. -/
def Offers (p : Pic) (lines : BitVec 8) (i : Fin 8) : Prop :=
  p.awaiting = [] ∧ lines.getLsbD i = true ∧ p.mask.getLsbD i = false ∧
    ∀ j : Fin 8, j ≤ i → p.service.getLsbD j = false

instance (p : Pic) (lines : BitVec 8) (i : Fin 8) : Decidable (p.Offers lines i) :=
  inferInstanceAs (Decidable (_ ∧ _ ∧ _ ∧ _))

def next (p : Pic) (lines : BitVec 8) : Option (Fin 8) :=
  (List.finRange 8).find? fun i => decide (p.Offers lines i)

/-- The processor takes line `i`.  In the automatic mode nothing is kept in service. -/
def accept (p : Pic) (i : Fin 8) : Pic :=
  { p with
    request := p.request &&& ~~~ BitVec.twoPow 8 i
    service := if p.mode &&& 0x02 = 0 then p.service ||| BitVec.twoPow 8 i else p.service }

end Pic

/-! ## Channel 0 of the 8253 -/

structure Pit where
  control : BitVec 8
  held : Option (BitVec 8)
  reload : BitVec 16
deriving DecidableEq, Repr

namespace Pit

/-- A write to the control port.  The upper two bits name the channel, and zero in the next
two only latches the count. -/
def command (p : Pit) (v : BitVec 8) : Pit :=
  if v &&& 0xC0 = 0 ∧ v &&& 0x30 ≠ 0 then { p with control := v, held := none } else p

/-- A write to the port of the channel: the low byte, the high byte or one after the other. -/
def data (p : Pit) (v : BitVec 8) : Pit :=
  if p.control &&& 0x30 = 0x10 then { p with reload := v.setWidth 16 }
  else if p.control &&& 0x30 = 0x20 then { p with reload := v.setWidth 16 <<< 8 }
  else
    match p.held with
    | none => { p with held := some v }
    | some low => { p with held := none, reload := v.setWidth 16 <<< 8 ||| low.setWidth 16 }

end Pit

/-! ## All of them -/

/-- What a device does on its own.  Lines 0 and 1 belong to the timer and the keyboard, and
line 2 to the second controller. -/
inductive Arrival where
  | tick
  | key (code : BitVec 8)
  | device (line : Fin 13)
deriving DecidableEq, Repr

def Arrival.code : Arrival → Option (BitVec 8)
  | .tick => none
  | .key code => some code
  | .device _ => none

/-- `keys` are the bytes that the keyboard controller holds, the oldest first, and `latch` is
the byte last read from it.  `future` is what the devices are going to do. -/
structure Devices where
  master : Pic
  slave : Pic
  pit : Pit
  latch : BitVec 8
  keys : List (BitVec 8)
  future : List (List Arrival)
deriving DecidableEq, Repr

namespace Devices

/-- The keyboard controller raises its line when a byte comes to stand at its output. -/
def arrive (d : Devices) : Arrival → Devices
  | .tick => { d with master := d.master.raise 0 }
  | .key code =>
    { d with
      master := if d.keys = [] then d.master.raise 1 else d.master
      keys := d.keys ++ [code] }
  | .device line =>
    if line.val < 5 then { d with master := d.master.raise (line.val + 3) }
    else { d with slave := d.slave.raise (line.val - 5) }

/-- The next burst. -/
def advance (d : Devices) : Devices :=
  match d.future with
  | [] => d
  | now :: later => now.foldl arrive { d with future := later }

/-- A byte written to a port.  The other ports have no part in this. -/
def out (d : Devices) (port : BitVec 16) (v : BitVec 8) : Devices :=
  if port = 0x20 then { d with master := d.master.command v }
  else if port = 0x21 then { d with master := d.master.data v }
  else if port = 0xA0 then { d with slave := d.slave.command v }
  else if port = 0xA1 then { d with slave := d.slave.data v }
  else if port = 0x43 then { d with pit := d.pit.command v }
  else if port = 0x40 then { d with pit := d.pit.data v }
  else d

/-- The byte at the output of the keyboard controller.  When it is taken and there is another
one, the line goes up again. -/
def takeKey (d : Devices) : BitVec 8 × Devices :=
  match d.keys with
  | [] => (d.latch, d)
  | code :: rest =>
    (code, { d with
      latch := code
      keys := rest
      master := if rest = [] then d.master else d.master.raise 1 })

/-- A byte read from a port.  Only the keyboard controller is read. -/
def inp (d : Devices) (port : BitVec 16) : BitVec 8 × Devices :=
  if port = 0x60 then d.takeKey else (0xFF, d)

/-- The lines of the first controller, with the one that the second pulls. -/
def lines (d : Devices) : BitVec 8 :=
  if (d.slave.next d.slave.request).isSome then d.master.request ||| BitVec.twoPow 8 2
  else d.master.request

/-- The vector of the interrupt to be served, and the controllers when it is taken. -/
def interrupt (d : Devices) : Option (BitVec 8 × Devices) :=
  (d.master.next d.lines).map fun i =>
    match d.slave.next d.slave.request with
    | some j =>
      if i = 2 then (d.slave.base + BitVec.ofNat 8 j,
        { d with master := d.master.accept i, slave := d.slave.accept j })
      else (d.master.base + BitVec.ofNat 8 i, { d with master := d.master.accept i })
    | none => (d.master.base + BitVec.ofNat 8 i, { d with master := d.master.accept i })

/-- The bytes that a burst brings. -/
def codes (now : List Arrival) : List (BitVec 8) := now.filterMap Arrival.code

/-- The bytes of the keyboard that have not been taken, those to come included. -/
def untaken (d : Devices) : List (BitVec 8) := d.keys ++ d.future.flatMap codes

end Devices

/-! ## What a controller is set to -/

namespace Pic

variable {p : Pic} {v lines : BitVec 8} {i j : Fin 8}

/-- A controller but for its requests, which alone the devices change. -/
def settings (p : Pic) : Pic := { p with request := 0 }

@[simp] theorem settings_raise (line : Nat) : (p.raise line).settings = p.settings := rfl

theorem settings_command : (p.command v).settings = p.settings.command v := by
  unfold command
  split
  · rfl
  · split <;> rfl

theorem settings_data : (p.data v).settings = p.settings.data v := by
  rcases p with ⟨base, cascade, mode, mask, request, service, awaiting⟩
  cases awaiting with
  | nil => rfl
  | cons word rest => cases word <;> rfl

theorem getLsbD_raise {line j : Nat} (hline : line < 8) :
    (p.raise line).request.getLsbD j = (p.request.getLsbD j || decide (line = j)) := by
  rw [raise, BitVec.getLsbD_or, BitVec.getLsbD_twoPow, decide_eq_true hline, Bool.true_and]

theorem getLsbD_accept (hj : j ≠ i) :
    (p.accept i).request.getLsbD j = p.request.getLsbD j := by
  have hne : decide (i.val = j.val) = false := decide_eq_false fun h => hj (Fin.ext h.symm)
  rw [accept, BitVec.getLsbD_and, BitVec.getLsbD_not, BitVec.getLsbD_twoPow, hne, Bool.and_false,
    decide_eq_true j.isLt, Bool.not_false, Bool.and_true, Bool.and_true]

theorem getLsbD_accept_self : (p.accept i).request.getLsbD i = false := by
  rw [accept, BitVec.getLsbD_and, BitVec.getLsbD_not, BitVec.getLsbD_twoPow,
    decide_eq_true i.isLt, decide_eq_true rfl]
  exact Bool.and_false _

theorem next_eq_some_iff :
    p.next lines = some i ↔ p.Offers lines i ∧ ∀ j < i, ¬ p.Offers lines j := by
  have hget : ∀ (k : Nat) (hk : k < (List.finRange 8).length),
      (List.finRange 8)[k] = ⟨k, by simpa using hk⟩ := by
    intro k hk
    rw [List.getElem_finRange]
    rfl
  rw [next, List.find?_eq_some_iff_getElem]
  simp only [hget, decide_eq_true_eq, Bool.not_eq_true', decide_eq_false_iff_not]
  constructor
  · intro h
    obtain ⟨hoffers, k, hk, rfl, hbefore⟩ := h
    exact ⟨hoffers, fun j hj => hbefore j.val hj⟩
  · intro h
    exact ⟨h.1, i.val, by simp, rfl, fun j hj => h.2 ⟨j, by omega⟩ hj⟩

theorem next_eq_none_iff : p.next lines = none ↔ ∀ i, ¬ p.Offers lines i := by
  rw [next, List.find?_eq_none]
  constructor
  · intro h i
    simpa using h i (List.mem_finRange i)
  · intro h i _
    simpa using h i

end Pic

/-! ## Bursts -/

namespace Devices

variable {γ : Type} {d : Devices} {port : BitVec 16} {v : BitVec 8}

/-- What no arrival changes is the same after a burst. -/
theorem advance_same {f : Devices → γ} (hfuture : ∀ d later, f { d with future := later } = f d)
    (harrive : ∀ d a, f (arrive d a) = f d) (d : Devices) : f d.advance = f d := by
  have hburst : ∀ (now : List Arrival) (d : Devices), f (now.foldl arrive d) = f d := by
    intro now
    induction now with
    | nil =>
      intro d
      rfl
    | cons a now ih =>
      intro d
      rw [List.foldl_cons, ih, harrive]
  rw [advance]
  split
  · rfl
  · rw [hburst, hfuture]

/-- What every arrival keeps holds after a burst. -/
theorem advance_keeps {P : Devices → Prop} (hfuture : ∀ d later, P d → P { d with future := later })
    (harrive : ∀ d a, P d → P (arrive d a)) (h : P d) : P d.advance := by
  have hburst : ∀ (now : List Arrival) (d : Devices), P d → P (now.foldl arrive d) := by
    intro now
    induction now with
    | nil =>
      intro d hd
      exact hd
    | cons a now ih =>
      intro d hd
      exact ih _ (harrive d a hd)
  rw [advance]
  split
  · exact h
  · exact hburst _ _ (hfuture d _ h)

@[simp] theorem advance_master_settings (d : Devices) :
    d.advance.master.settings = d.master.settings := by
  refine advance_same (f := fun d => d.master.settings) (fun _ _ => rfl) (fun d a => ?_) d
  cases a with
  | tick => rfl
  | key code =>
    rw [arrive]
    by_cases hk : d.keys = []
    · rw [if_pos hk]
      rfl
    · rw [if_neg hk]
  | device line =>
    rw [arrive]
    split <;> rfl

@[simp] theorem advance_slave_settings (d : Devices) :
    d.advance.slave.settings = d.slave.settings := by
  refine advance_same (f := fun d => d.slave.settings) (fun _ _ => rfl) (fun d a => ?_) d
  cases a with
  | tick => rfl
  | key code => rfl
  | device line =>
    rw [arrive]
    split <;> rfl

@[simp] theorem advance_pit (d : Devices) : d.advance.pit = d.pit := by
  refine advance_same (f := pit) (fun _ _ => rfl) (fun d a => ?_) d
  cases a with
  | tick => rfl
  | key code => rfl
  | device line =>
    rw [arrive]
    split <;> rfl

theorem arrive_future (d : Devices) (a : Arrival) : (d.arrive a).future = d.future := by
  cases a with
  | tick => rfl
  | key code => rfl
  | device line =>
    rw [arrive]
    split <;> rfl

theorem arrive_keys (d : Devices) (a : Arrival) : (d.arrive a).keys = d.keys ++ a.code.toList := by
  cases a with
  | tick => exact (List.append_nil _).symm
  | key code => rfl
  | device line =>
    rw [arrive]
    split <;> exact (List.append_nil _).symm

theorem codes_cons (a : Arrival) (now : List Arrival) :
    codes (a :: now) = a.code.toList ++ codes now := by
  rw [codes, List.filterMap_cons]
  cases a.code <;> rfl

/-- A burst brings its bytes behind those that are there. -/
theorem advance_keys (d : Devices) :
    d.advance.keys = d.keys ++ (d.future.take 1).flatMap codes ∧
      d.advance.future = d.future.drop 1 := by
  have hburst : ∀ (now : List Arrival) (d : Devices),
      (now.foldl arrive d).keys = d.keys ++ codes now ∧ (now.foldl arrive d).future = d.future := by
    intro now
    induction now with
    | nil =>
      intro d
      exact ⟨(List.append_nil _).symm, rfl⟩
    | cons a now ih =>
      intro d
      rw [List.foldl_cons, (ih _).1, (ih _).2, arrive_future, arrive_keys, codes_cons,
        List.append_assoc]
      exact ⟨rfl, rfl⟩
  rw [advance]
  split
  · rename_i hfut
    rw [hfut]
    exact ⟨(List.append_nil _).symm, rfl⟩
  · rename_i now later hfut
    obtain ⟨hkeys, hfuture⟩ := hburst now { d with future := later }
    rw [hfut, hkeys, hfuture]
    exact ⟨congrArg _ (List.append_nil _).symm, rfl⟩

@[simp] theorem advance_untaken (d : Devices) : d.advance.untaken = d.untaken := by
  rw [untaken, (advance_keys d).1, (advance_keys d).2, List.append_assoc, ← List.flatMap_append,
    List.take_append_drop]
  rfl

/-- The line of the keyboard is up exactly when there is a byte to take. -/
def Signals (d : Devices) : Prop := d.master.request.getLsbD 1 = true ↔ d.keys ≠ []

instance (d : Devices) : Decidable d.Signals := inferInstanceAs (Decidable (_ ↔ _))

theorem Signals.arrive (h : d.Signals) (a : Arrival) : (d.arrive a).Signals := by
  cases a with
  | tick =>
    show (d.master.raise 0).request.getLsbD 1 = true ↔ d.keys ≠ []
    rw [Pic.getLsbD_raise (by decide), decide_eq_false (by decide), Bool.or_false]
    exact h
  | key code =>
    rw [Signals, Devices.arrive]
    by_cases hk : d.keys = []
    · rw [if_pos hk, Pic.getLsbD_raise (by decide)]
      simp
    · rw [if_neg hk]
      simpa using h.mpr hk
  | device line =>
    rw [Devices.arrive]
    split
    · show (d.master.raise (line.val + 3)).request.getLsbD 1 = true ↔ d.keys ≠ []
      rw [Pic.getLsbD_raise (by omega), decide_eq_false (by omega), Bool.or_false]
      exact h
    · exact h

theorem Signals.advance (h : d.Signals) : d.advance.Signals :=
  advance_keeps (fun _ _ hd => hd) (fun _ a hd => hd.arrive a) h

/-- What the ports set, which the devices do not change. -/
structure Settings where
  master : Pic
  slave : Pic
  pit : Pit
deriving DecidableEq, Repr

def settings (d : Devices) : Settings := ⟨d.master.settings, d.slave.settings, d.pit⟩

def Settings.out (set : Settings) (port : BitVec 16) (v : BitVec 8) : Settings :=
  if port = 0x20 then { set with master := set.master.command v }
  else if port = 0x21 then { set with master := set.master.data v }
  else if port = 0xA0 then { set with slave := set.slave.command v }
  else if port = 0xA1 then { set with slave := set.slave.data v }
  else if port = 0x43 then { set with pit := set.pit.command v }
  else if port = 0x40 then { set with pit := set.pit.data v }
  else set

@[simp] theorem settings_advance (d : Devices) : d.advance.settings = d.settings := by
  rw [settings, advance_master_settings, advance_slave_settings, advance_pit]
  rfl

theorem settings_takeKey (d : Devices) : d.takeKey.2.settings = d.settings := by
  rw [takeKey]
  split
  · rfl
  · dsimp only
    split
    · rfl
    · simp only [settings, Pic.settings_raise]

/-- A port sets the same whatever has been requested. -/
theorem settings_out (d : Devices) (port : BitVec 16) (v : BitVec 8) :
    (d.out port v).settings = d.settings.out port v := by
  rw [out, Settings.out]
  split
  · exact congrArg (Settings.mk · _ _) Pic.settings_command
  · split
    · exact congrArg (Settings.mk · _ _) Pic.settings_data
    · split
      · exact congrArg (Settings.mk _ · _) Pic.settings_command
      · split
        · exact congrArg (Settings.mk _ · _) Pic.settings_data
        · split
          · rfl
          · split <;> rfl

theorem out_keys (d : Devices) (port : BitVec 16) (v : BitVec 8) :
    (d.out port v).keys = d.keys ∧ (d.out port v).future = d.future := by
  rw [out]
  split
  · exact ⟨rfl, rfl⟩
  · split
    · exact ⟨rfl, rfl⟩
    · split
      · exact ⟨rfl, rfl⟩
      · split
        · exact ⟨rfl, rfl⟩
        · split
          · exact ⟨rfl, rfl⟩
          · split <;> exact ⟨rfl, rfl⟩

@[simp] theorem out_untaken (d : Devices) (port : BitVec 16) (v : BitVec 8) :
    (d.out port v).untaken = d.untaken := by
  rw [untaken, untaken, (out_keys d port v).1, (out_keys d port v).2]

/-- A write that starts no initialisation forgets no request. -/
theorem out_request (hstart : port ≠ 0x20 ∨ v &&& 0x10 = 0) :
    (d.out port v).master.request = d.master.request := by
  rw [out]
  split
  · rename_i hport
    rw [Pic.command, if_neg (not_not.mpr (hstart.resolve_left (not_not.mpr hport)))]
    split <;> rfl
  · split
    · rw [Pic.data]
      split <;> rfl
    · split
      · rfl
      · split
        · rfl
        · split
          · rfl
          · split <;> rfl

theorem Signals.out (h : d.Signals) (hstart : port ≠ 0x20 ∨ v &&& 0x10 = 0) :
    (d.out port v).Signals := by
  rw [Signals, out_request hstart, (out_keys d port v).1]
  exact h

/-- Writes to ports, one after the other. -/
def outAll (writes : List (BitVec 16 × BitVec 8)) (d : Devices) : Devices :=
  writes.foldl (fun d w => d.advance.out w.1 w.2) d

theorem settings_outAll (writes : List (BitVec 16 × BitVec 8)) : ∀ d : Devices,
    (d.outAll writes).settings = writes.foldl (fun set w => set.out w.1 w.2) d.settings := by
  induction writes with
  | nil =>
    intro d
    rfl
  | cons w writes ih =>
    intro d
    rw [outAll, List.foldl_cons, List.foldl_cons, ← settings_advance d, ← settings_out]
    exact ih _

theorem outAll_append (writes writes' : List (BitVec 16 × BitVec 8)) (d : Devices) :
    d.outAll (writes ++ writes') = (d.outAll writes).outAll writes' :=
  List.foldl_append

/-- Every write gives the devices time for one burst. -/
theorem outAll_keys (writes : List (BitVec 16 × BitVec 8)) : ∀ d : Devices,
    (d.outAll writes).keys = d.keys ++ (d.future.take writes.length).flatMap codes ∧
      (d.outAll writes).future = d.future.drop writes.length := by
  induction writes with
  | nil =>
    intro d
    exact ⟨(List.append_nil _).symm, rfl⟩
  | cons w writes ih =>
    intro d
    obtain ⟨hkeys, hfuture⟩ := ih (d.advance.out w.1 w.2)
    rw [(out_keys d.advance w.1 w.2).1, (out_keys d.advance w.1 w.2).2, (advance_keys d).1,
      (advance_keys d).2] at hkeys
    rw [(out_keys d.advance w.1 w.2).2, (advance_keys d).2] at hfuture
    refine ⟨hkeys.trans ?_, hfuture.trans ?_⟩
    · cases d.future with
      | nil => simp
      | cons now later => simp [List.flatMap_cons]
    · rw [List.drop_drop, List.length_cons, Nat.add_comm]

theorem outAll_untaken (writes : List (BitVec 16 × BitVec 8)) : ∀ d : Devices,
    (d.outAll writes).untaken = d.untaken := by
  induction writes with
  | nil =>
    intro d
    rfl
  | cons w writes ih =>
    intro d
    rw [outAll, List.foldl_cons]
    exact (ih _).trans ((out_untaken _ _ _).trans (advance_untaken d))

theorem Signals.outAll {writes : List (BitVec 16 × BitVec 8)}
    (hstart : ∀ w ∈ writes, w.1 ≠ 0x20 ∨ w.2 &&& 0x10 = 0) : ∀ {d : Devices}, d.Signals →
      (d.outAll writes).Signals := by
  induction writes with
  | nil =>
    intro d h
    exact h
  | cons w writes ih =>
    intro d h
    exact ih (fun w' hw' => hstart w' (List.mem_cons_of_mem _ hw'))
      (h.advance.out (hstart w (List.mem_cons_self ..)))

/-- The byte `code` is at the output of the keyboard controller, and the line is not up for
it: it has been announced, or the announcement has been lost. -/
def Waits (d : Devices) (code : BitVec 8) : Prop :=
  d.keys.head? = some code ∧ d.master.request.getLsbD 1 = false

theorem Waits.keys_ne_nil {code : BitVec 8} (h : d.Waits code) : d.keys ≠ [] := by
  intro hnil
  have hhead := h.1
  rw [hnil] at hhead
  cases hhead

/-- A byte that comes behind another one raises no line. -/
theorem Waits.arrive {code : BitVec 8} (h : d.Waits code) (a : Arrival) :
    (d.arrive a).Waits code := by
  refine ⟨?_, ?_⟩
  · rw [arrive_keys, List.head?_append, h.1]
    rfl
  · cases a with
    | tick =>
      show (d.master.raise 0).request.getLsbD 1 = false
      rw [Pic.getLsbD_raise (by decide), decide_eq_false (by decide), Bool.or_false]
      exact h.2
    | key code =>
      rw [Devices.arrive, if_neg h.keys_ne_nil]
      exact h.2
    | device line =>
      rw [Devices.arrive]
      split
      · show (d.master.raise (line.val + 3)).request.getLsbD 1 = false
        rw [Pic.getLsbD_raise (by omega), decide_eq_false (by omega), Bool.or_false]
        exact h.2
      · exact h.2

theorem Waits.advance {code : BitVec 8} (h : d.Waits code) : d.advance.Waits code :=
  advance_keeps (P := fun d => d.Waits code) (fun _ _ hd => hd) (fun _ a hd => hd.arrive a) h

theorem Waits.out {code : BitVec 8} (h : d.Waits code) (hstart : port ≠ 0x20 ∨ v &&& 0x10 = 0) :
    (d.out port v).Waits code := by
  rw [Waits, out_request hstart, (out_keys d port v).1]
  exact h

theorem Waits.outAll {writes : List (BitVec 16 × BitVec 8)} {code : BitVec 8}
    (hstart : ∀ w ∈ writes, w.1 ≠ 0x20 ∨ w.2 &&& 0x10 = 0) : ∀ {d : Devices}, d.Waits code →
      (d.outAll writes).Waits code := by
  induction writes with
  | nil =>
    intro d h
    exact h
  | cons w writes ih =>
    intro d h
    exact ih (fun w' hw' => hstart w' (List.mem_cons_of_mem _ hw'))
      (h.advance.out (hstart w (List.mem_cons_self ..)))

/-- The byte is taken, and the line says whether there is another. -/
theorem Waits.takeKey {code : BitVec 8} (h : d.Waits code) :
    d.takeKey.1 = code ∧ d.takeKey.2.Signals ∧ d.untaken = code :: d.takeKey.2.untaken ∧
      d.takeKey.2.future = d.future ∧ d.takeKey.2.settings = d.settings := by
  obtain ⟨hhead, hdown⟩ := h
  obtain ⟨rest, hkeys⟩ := List.head?_eq_some_iff.mp hhead
  have huntaken : d.untaken = code :: (rest ++ d.future.flatMap codes) := by
    rw [untaken, hkeys, List.cons_append]
  rw [huntaken, Devices.takeKey, hkeys]
  refine ⟨rfl, ?_, rfl, rfl, ?_⟩
  · rw [Signals]
    dsimp only
    by_cases hr : rest = []
    · rw [if_pos hr, hdown]
      simp [hr]
    · rw [if_neg hr, Pic.getLsbD_raise (by decide)]
      simp [hr]
  · by_cases hr : rest = []
    · simp only [settings, if_pos hr]
    · simp only [settings, if_neg hr, Pic.settings_raise]

theorem lines_getLsbD {i : Nat} (hi : i ≠ 2) :
    d.lines.getLsbD i = d.master.request.getLsbD i := by
  rw [lines]
  split
  · rw [BitVec.getLsbD_or, BitVec.getLsbD_twoPow, decide_eq_false (show ¬ 2 = i from Ne.symm hi),
      Bool.and_false, Bool.or_false]
  · rfl

/-- With the lines from 2 on masked, and nothing in service, only the timer and the keyboard
are served, the timer first. -/
theorem interrupt_timer_keyboard (hset : d.master.awaiting = [] ∧ d.master.mask = 0xFC ∧
    d.master.service = 0) : d.interrupt =
      if d.master.request.getLsbD 0 = true then
        some (d.master.base, { d with master := d.master.accept 0 })
      else if d.master.request.getLsbD 1 = true then
        some (d.master.base + 1, { d with master := d.master.accept 1 })
      else none := by
  obtain ⟨hawaiting, hmask, hservice⟩ := hset
  have hoffers : ∀ i : Fin 8, d.master.Offers d.lines i ↔
      d.master.request.getLsbD i = true ∧ i < 2 := by
    intro i
    have hunmasked : ∀ i : Fin 8, (0xFC : BitVec 8).getLsbD i = false ↔ i < 2 := by decide
    have hnone : ∀ j : Fin 8, j ≤ i → (0 : BitVec 8).getLsbD j = false := by
      intro j _
      exact BitVec.getLsbD_zero
    rw [Pic.Offers, hawaiting, hmask, hservice, hunmasked]
    constructor
    · intro h
      rw [lines_getLsbD (by omega)] at h
      exact ⟨h.2.1, h.2.2.1⟩
    · intro h
      rw [lines_getLsbD (by omega)]
      exact ⟨rfl, h.1, h.2, hnone⟩
  have htaken : ∀ i : Fin 8, i ≠ 2 → d.master.next d.lines = some i →
      d.interrupt = some (d.master.base + BitVec.ofNat 8 i,
        { d with master := d.master.accept i }) := by
    intro i hi hnext
    rw [interrupt, hnext, Option.map_some]
    cases d.slave.next d.slave.request with
    | none => rfl
    | some j =>
      dsimp only
      rw [if_neg hi]
  by_cases h0 : d.master.request.getLsbD 0 = true
  · rw [if_pos h0, htaken 0 (by decide) (Pic.next_eq_some_iff.mpr
      ⟨(hoffers 0).mpr ⟨h0, by decide⟩, fun j hj => absurd hj (Fin.not_lt_zero j)⟩)]
    exact congrArg some (Prod.ext (BitVec.add_zero _) rfl)
  · rw [if_neg h0]
    by_cases h1 : d.master.request.getLsbD 1 = true
    · rw [if_pos h1, htaken 1 (by decide) (Pic.next_eq_some_iff.mpr
        ⟨(hoffers 1).mpr ⟨h1, by decide⟩, fun j hj hoff => ?_⟩)]
      · rfl
      · have hzero : j = 0 := by omega
        rw [hzero, hoffers] at hoff
        exact h0 hoff.1
    · have hnone : d.master.next d.lines = none := by
        refine Pic.next_eq_none_iff.mpr fun i hoff => ?_
        rw [hoffers] at hoff
        have hcase : i = 0 ∨ i = 1 := by omega
        rcases hcase with rfl | rfl
        · exact h0 hoff.1
        · exact h1 hoff.1
      rw [if_neg h1, interrupt, hnone, Option.map_none]

/-- What is left to be served: a burst can bring one more interrupt of the timer. -/
def pending (d : Devices) : Nat :=
  2 * d.future.length + d.untaken.length + (d.master.request.getLsbD 0).toNat

/-- A burst takes from what is to come at least what it adds to what is there. -/
theorem advance_pending (d : Devices) : d.advance.pending ≤ d.pending ∧
    (d.future ≠ [] → d.advance.pending + 1 ≤ d.pending) := by
  have huntaken := congrArg List.length (advance_untaken d)
  have hfuture := (advance_keys d).2
  have hbit := Bool.toNat_le (d.advance.master.request.getLsbD 0)
  rw [pending, pending, huntaken, hfuture]
  cases hfut : d.future with
  | nil =>
    have hsame : d.advance = d := by rw [advance, hfut]
    rw [hsame]
    exact ⟨Nat.le_refl _, fun h => absurd rfl h⟩
  | cons now later =>
    rw [List.drop_one, List.tail_cons, List.length_cons]
    refine ⟨?_, fun _ => ?_⟩ <;> omega

/-- A write adds nothing to it. -/
theorem out_pending (d : Devices) (port : BitVec 16) (v : BitVec 8) :
    (d.out port v).pending ≤ d.pending := by
  rw [pending, pending, out_untaken, (out_keys d port v).2]
  by_cases hstart : port ≠ 0x20 ∨ v &&& 0x10 = 0
  · rw [out_request hstart]
  · obtain ⟨hport, hv⟩ := not_or.mp hstart
    have hcleared : (d.out port v).master.request = 0 := by
      rw [out, if_pos (not_not.mp hport), Pic.command, if_pos hv]
    rw [hcleared]
    exact Nat.le_add_right _ _

theorem outAll_pending (writes : List (BitVec 16 × BitVec 8)) : ∀ d : Devices,
    (d.outAll writes).pending ≤ d.pending := by
  induction writes with
  | nil =>
    intro d
    exact Nat.le_refl _
  | cons w writes ih =>
    intro d
    calc (d.outAll (w :: writes)).pending ≤ (d.advance.out w.1 w.2).pending := ih _
      _ ≤ d.advance.pending := out_pending _ _ _
      _ ≤ d.pending := (advance_pending d).1

/-- The first controller has served line `i`. -/
def accepted (d : Devices) (i : Fin 8) : Devices := { d with master := d.master.accept i }

/-- The end gives back the settings that were there before. -/
theorem settings_accepted (hservice : d.master.service = 0) (i : Fin 8) :
    ((d.accepted i).outAll [(0x20, 0x20)]).settings = d.settings := by
  have hclear : ∀ i : Fin 8, (0 ||| BitVec.twoPow 8 i) &&& ((0 ||| BitVec.twoPow 8 i) - 1) =
      (0 : BitVec 8) := by decide
  have hzero : (0 : BitVec 8) &&& (0 - 1) = 0 := by decide
  rw [settings_outAll]
  show (d.accepted i).settings.out 0x20 0x20 = _
  rw [Settings.out, if_pos rfl]
  refine congrArg (Settings.mk · _ _) ?_
  show ((d.master.accept i).settings.command 0x20) = d.master.settings
  rw [Pic.command, if_neg (by decide), if_pos rfl]
  simp only [Pic.settings, Pic.accept, hservice]
  split
  · rw [hclear]
  · rw [hzero]

theorem Signals.accepted (h : d.Signals) : (d.accepted 0).Signals := by
  have hline : (d.accepted 0).master.request.getLsbD 1 = d.master.request.getLsbD 1 :=
    Pic.getLsbD_accept (by decide : (1 : Fin 8) ≠ 0)
  rw [Signals, hline]
  exact h

theorem Waits.accepted {code : BitVec 8} (h : d.Waits code) : (d.accepted 0).Waits code := by
  have hline : (d.accepted 0).master.request.getLsbD 1 = d.master.request.getLsbD 1 :=
    Pic.getLsbD_accept (by decide : (1 : Fin 8) ≠ 0)
  exact ⟨h.1, hline.trans h.2⟩

/-- When the keyboard is served, its first byte waits. -/
theorem Signals.waits (h : d.Signals) (hline : d.master.request.getLsbD 1 = true) :
    ∃ code, (d.accepted 1).Waits code := by
  obtain ⟨code, rest, hkeys⟩ := List.exists_cons_of_ne_nil (h.mp hline)
  refine ⟨code, ?_, Pic.getLsbD_accept_self⟩
  show d.keys.head? = some code
  rw [hkeys]
  rfl

theorem pending_accepted (hline : d.master.request.getLsbD 0 = true) :
    (d.accepted 0).pending + 1 = d.pending := by
  have hdown : (d.accepted 0).master.request.getLsbD 0 = false := Pic.getLsbD_accept_self
  rw [pending, pending, hdown, hline]
  rfl

/-- Taking the byte that waits is progress. -/
theorem Waits.takeKey_pending {code : BitVec 8} (h : d.Waits code) :
    d.takeKey.2.pending + 1 = d.pending := by
  obtain ⟨-, -, huntaken, hfuture, -⟩ := h.takeKey
  have hbit : d.takeKey.2.master.request.getLsbD 0 = d.master.request.getLsbD 0 := by
    rw [Devices.takeKey]
    split
    · rfl
    · dsimp only
      split
      · rfl
      · rw [Pic.getLsbD_raise (by decide), decide_eq_false (by decide), Bool.or_false]
  rw [pending, pending, huntaken, hfuture, hbit, List.length_cons]
  omega

end Devices

end FeralKernel
