import FeralKernel.Interrupts.Startup

/-!
# Serving an interrupt

The handlers of `kern/arch/x86_64/interrupts.c`, and how the processor finds them in the tables
that it has been given.  A `Session` is what the handlers change: the count of the timer, the flags
of the keyboard and the screen.

Of the frame that the processor pushes on the stack only one thing is part of this: whether there
is an error code on it.  All handlers are declared for a frame without one.
-/

namespace FeralKernel

open Verif.Program Verif.Bytes

/-! ## What a handler does -/

/-- What the handlers change. -/
structure Session where
  timer : BitVec 8
  terminal : Terminal

namespace Session

/-- Sixteen interrupts of the timer make a round. -/
def tick (u : Session) : Session := { u with timer := if u.timer + 1 = 16 then 0 else u.timer + 1 }

def press (u : Session) (code : BitVec 8) : Session := { u with terminal := u.terminal.press code }

def print (u : Session) (text : String) : Session :=
  { u with terminal :=
    { u.terminal with screen := (chars text).foldl Screen.type u.terminal.screen } }

end Session

namespace Handler

/-- `code` is the byte that the handler of the keyboard reads. -/
def serve (code : BitVec 8) : Handler → Session → Session
  | .divideByZero, u => u.print "DIVIDING BY ZERO!!!\n"
  | .genericHandler, u => u.print "Unhandled Interrupt!\n"
  | .genericHandlerPIC1, u => u.print "Unhandled Interrupt! (PIC1) \n"
  | .genericHandlerPIC2, u => u.print "Unhandled Interrupt! (PIC2) \n"
  | .doubleFaultHandler, u => u
  | .pageFaultHandler, u => u
  | .pitHandler, u => u.tick
  | .ps2KeyboardHandler, u => u.press code

/-- The ends that are sent. -/
def ends : Handler → List (BitVec 16 × BitVec 8)
  | .divideByZero => []
  | .genericHandler => []
  | .genericHandlerPIC1 => [(0x20, 0x20)]
  | .genericHandlerPIC2 => [(0xA0, 0x20), (0x20, 0x20)]
  | .doubleFaultHandler => []
  | .pageFaultHandler => []
  | .pitHandler => [(0x20, 0x20)]
  | .ps2KeyboardHandler => [(0x20, 0x20)]

/-- The devices behind the handler. -/
def drive (h : Handler) (d : Devices) : Devices :=
  (if h = .ps2KeyboardHandler then d.advance.takeKey.2 else d).outAll h.ends

/-- The handlers of faults do not come back. -/
def Stops (h : Handler) : Prop := h = .doubleFaultHandler ∨ h = .pageFaultHandler

instance (h : Handler) : Decidable h.Stops := inferInstanceAs (Decidable (_ ∨ _))

end Handler

/-! ## What the processor asks of its tables -/

/-- The descriptor of the vector is within the table and is an interrupt gate that is present. -/
def Gate.Opens (g : Gate) (k : KernelStatics) (vector : BitVec 8) : Prop :=
  16 * vector.toNat + 15 ≤ k.idtr.limit.toNat ∧ g.present = true ∧ g.type = 0xE

instance (g : Gate) (k : KernelStatics) (vector : BitVec 8) : Decidable (g.Opens k vector) :=
  inferInstanceAs (Decidable (_ ∧ _ ∧ _))

/-- The selector names 64-bit code of the kernel. -/
def Segment.Runs (seg : Segment) (k : KernelStatics) (selector : BitVec 16) : Prop :=
  selector.getLsbD 2 = false ∧ 8 * (selector.toNat / 8) + 7 ≤ k.gdtr.limit.toNat ∧
    seg.present = true ∧ seg.codeOrData = true ∧ seg.executable = true ∧ seg.long = true ∧
    seg.privilege = 0

instance (seg : Segment) (k : KernelStatics) (selector : BitVec 16) :
    Decidable (seg.Runs k selector) :=
  inferInstanceAs (Decidable (_ ∧ _ ∧ _ ∧ _ ∧ _ ∧ _ ∧ _))

namespace Interrupts

/-! ## The handlers -/

/-- A handler that prints a text and sends no end. -/
def printText (image : KernelImage) (text : String) : Kern KernelStatics Unit := do
  let _ ← kiPrintFmt image (image.literal text)
  pure ()

def divideByZero (image : KernelImage) : Kern KernelStatics Unit :=
  printText image "DIVIDING BY ZERO!!!\n"

def genericHandler (image : KernelImage) : Kern KernelStatics Unit :=
  printText image "Unhandled Interrupt!\n"

def genericHandlerPIC1 (image : KernelImage) : Kern KernelStatics Unit := do
  printText image "Unhandled Interrupt! (PIC1) \n"
  x86PICSendEOIPIC1

def genericHandlerPIC2 (image : KernelImage) : Kern KernelStatics Unit := do
  printText image "Unhandled Interrupt! (PIC2) \n"
  x86PICSendEOIPIC2

/-- `KiStopError` with `STATUS_ERROR`.  It ends in an empty loop, and what it prints first is not
part of this. -/
def stopWithError : Kern KernelStatics Unit := stop .hang

def doubleFaultHandler : Kern KernelStatics Unit := stopWithError

def pageFaultHandler : Kern KernelStatics Unit := stopWithError

def pitHandler : Kern KernelStatics Unit := do
  modifyStatics fun k => { k with screenTimer := k.screenTimer + 1 }
  let k ← getStatics
  onlyIf (k.screenTimer = 16) do
    modifyStatics fun k => { k with screenTimer := 0 }
    focus (machinePart consolePart) vgaSwapBuffers
  x86PICSendEOIPIC1

/-- `CheckStatusCode`, whose call of `KiBackspace` comes last. -/
def checkStatus (image : KernelImage) (input : BitVec 8) : Kern KernelStatics Unit := do
  let isBackspace ← focus (machinePart keyboardPart) (statusCodeKey image.keys input)
  onlyIf (isBackspace = true) kiBackspace

/-- The initializer of `Buffer`, and then the two assignments. -/
def storeLetter (buffer : Ptr) (letter : BitVec 8) : Kern KernelStatics Unit := do
  store8 buffer 0
  store8 (buffer + 1) 0
  store8 buffer letter
  store8 (buffer + 1) 0

def ps2KeyboardHandler (image : KernelImage) : Kern KernelStatics Unit := do
  let keycode ← x86inb 0x60
  checkStatus image keycode
  let letter ← focus (machinePart keyboardPart) (internalConvertPS2KeyToASCII image.keys keycode)
  storeLetter image.letter letter
  onlyIf (letter ≠ 0 ∧ keycode &&& 0x7F = keycode) do
    let _ ← kiPrintFmt image image.letter
    pure ()
  x86PICSendEOIPIC1

def handle (image : KernelImage) : Handler → Kern KernelStatics Unit
  | .divideByZero => divideByZero image
  | .genericHandler => genericHandler image
  | .genericHandlerPIC1 => genericHandlerPIC1 image
  | .genericHandlerPIC2 => genericHandlerPIC2 image
  | .doubleFaultHandler => doubleFaultHandler
  | .pageFaultHandler => pageFaultHandler
  | .pitHandler => pitHandler
  | .ps2KeyboardHandler => ps2KeyboardHandler image

/-! ## The processor -/

def handlers : List Handler :=
  [.divideByZero, .genericHandler, .genericHandlerPIC1, .genericHandlerPIC2, .doubleFaultHandler,
    .pageFaultHandler, .pitHandler, .ps2KeyboardHandler]

/-- The handler that the processor enters, as the tables in memory have it. -/
def entered (image : KernelImage) (s : Machine KernelStatics) (vector : BitVec 8) :
    Option Handler :=
  let gate := (descriptors s.mem s.statics.idtr.base vector).gate
  let segment := segmentAt s.mem (phys s.statics.gdtr.base + 8 * (gate.selector.toNat / 8))
  if gate.Opens s.statics vector ∧ segment.Runs s.statics gate.selector then
    handlers.find? fun h => image.entry h = gate.offset
  else none

/-- A gate of this kind turns interrupts off, and the return from the handler brings the flag back.
Without a handler the processor does not come back.  `errorCode` says whether there is an error code
on the frame, as there is for some of the exceptions. -/
def deliver (image : KernelImage) (vector : BitVec 8) (errorCode : Bool) :
    Kern KernelStatics Unit := do
  let s ← get
  match entered image s vector with
  | none => stop .hang
  | some handler =>
    kiRestoreInterrupts false
    handle image handler
    -- no handler takes the code off the stack, and the return takes it for an address
    if errorCode = true then stop .hang
    else kiRestoreInterrupts s.statics.interruptFlag

/-- The devices go on, and an interrupt is served if there is one and interrupts are on. -/
def interruptCycle (image : KernelImage) : Kern KernelStatics Unit := do
  modifyStatics fun k => { k with devices := k.devices.advance }
  let k ← getStatics
  onlyIf (k.interruptFlag = true) do
    match k.devices.interrupt with
    | none => pure ()
    | some (vector, devices) =>
      setStatics { k with devices := devices }
      deliver image vector false

/-! ## Which handler it is -/

section Entered

variable {image : KernelImage} {s : Machine KernelStatics}

theorem find_entry (hl : image.Laid) (h : Handler) :
    handlers.find? (fun h' => image.entry h' = image.entry h) = some h := by
  have hsame : ∀ h', decide (image.entry h' = image.entry h) = decide (h' = h) := by
    intro h'
    exact decide_eq_decide.mpr hl.entries.eq_iff
  simp only [hsame]
  cases h <;> rfl

/-- Through the tables every vector but the last leads to its handler, and the last one leads
nowhere. -/
theorem entered_eq (hl : image.Laid) (ht : Tables image s.mem s.statics) (v : BitVec 8) :
    entered image s v = if v = 0xFF then none else some (handlerOf v) := by
  have hv := v.isLt
  rw [entered, ht.idtr, ht.gdtr]
  dsimp only
  by_cases hff : v = 0xFF
  · have hno : ¬ (descriptors s.mem image.idt v).gate.Opens s.statics v := by
      intro h
      rw [hff] at h
      have hpresent := h.2.1
      rw [ht.last] at hpresent
      cases hpresent
    rw [if_pos hff, if_neg fun h => hno h.1]
  · have hopens : (kernelGate (image.entry (handlerOf v))).Opens s.statics v := by
      refine ⟨?_, rfl, rfl⟩
      rw [ht.idtr]
      show _ ≤ 4095
      omega
    have hruns : (codeSegment 0).Runs s.statics 0x08 := by
      refine ⟨by decide, ?_, rfl, rfl, rfl, rfl, rfl⟩
      rw [ht.gdtr]
      show 8 * ((0x08 : BitVec 16).toNat / 8) + 7 ≤ (39 : BitVec 16).toNat
      decide
    have hsegment : segmentAt s.mem (phys image.gdtEntries + 8 * ((0x08 : BitVec 16).toNat / 8)) =
        codeSegment 0 := ht.segments 1 (by decide)
    rw [if_neg hff, ht.gates v hff]
    show (if (kernelGate (image.entry (handlerOf v))).Opens s.statics v ∧
      (segmentAt s.mem (phys image.gdtEntries + 8 * ((0x08 : BitVec 16).toNat / 8))).Runs
        s.statics 0x08 then _ else _) = _
    rw [hsegment, if_pos ⟨hopens, hruns⟩]
    exact find_entry hl _

end Entered

/-! ## What the handlers make of a session -/

/-- The state shows the session. -/
structure Shown (image : KernelImage) (s : Machine KernelStatics) (u : Session) : Prop where
  texts : image.Texts s.mem
  screen : Showing image s u.terminal.screen
  keyboard : s.statics.keyboard = u.terminal.keyboard
  timer : s.statics.screenTimer = u.timer

/-- What a handler writes to. -/
def handlerAreas : List Area := [.screen, .letter, .digits]

/-- From `s` to `t` a handler has changed the session to `u` and the devices by `f`. -/
structure Handled (image : KernelImage) (u : Session) (f : Devices → Devices)
    (s t : Machine KernelStatics) : Prop where
  shown : Shown image t u
  memory : image.ChangedIn handlerAreas s.mem t.mem
  statics : t.statics = { s.statics with
    console := t.statics.console
    keyboard := t.statics.keyboard
    screenTimer := t.statics.screenTimer
    devices := f s.statics.devices }

section Handled

variable {image : KernelImage} {s t : Machine KernelStatics} {u : Session}
  {f g : Devices → Devices}

/-- The console is the same in the same memory. -/
theorem Shown.same (h : Shown image s u) (hl : image.Laid) (hm : t.mem = s.mem)
    (hstat : t.statics.console = s.statics.console) : Showing image t u.terminal.screen :=
  have hsame : image.ChangedIn [] s.mem t.mem := fun a _ => congrFun hm a
  h.screen.congr hl hsame (by simp) hstat

theorem Handled.devices (h : Handled image u f s t) :
    t.statics.devices = f s.statics.devices := by rw [h.statics]

/-- More writes to ports. -/
theorem Handled.writePorts (h : Handled image u f s t) (writes : List (BitVec 16 × BitVec 8)) :
    Returns (writePorts writes) t fun _ w =>
      Handled image u (fun d => (f d).outAll writes) s w := by
  refine (writePorts_spec writes t).mono fun _ w hw => ?_
  rw [hw]
  have hscreen : Showing image (t.onDevices (Devices.outAll writes)) u.terminal.screen :=
    ⟨h.shown.screen.shows, h.shown.screen.front⟩
  refine ⟨⟨h.shown.texts, hscreen, h.shown.keyboard, h.shown.timer⟩, h.memory, ?_⟩
  rw [Machine.onDevices_statics, h.statics]

theorem printText_spec (hl : image.Laid) (h : Shown image s u) {text : String}
    (hmem : text ∈ KernelImage.messages) (hpercent : text ≠ "%") :
    Returns (printText image text) s fun _ t => Handled image (u.print text) id s t := by
  rw [printText]
  refine (kiPrintFmt_message hl h.texts h.screen hmem hpercent).bind fun _ t ht => ?_
  obtain ⟨hshow, hm, hstat⟩ := ht
  rw [returns_pure]
  refine ⟨⟨h.texts.congr hm, hshow, ?_, ?_⟩, hm.mono (by simp [handlerAreas]), ?_⟩
  · rw [hstat]
    exact h.keyboard
  · rw [hstat]
    exact h.timer
  · rw [hstat]
    rfl

/-- A text is printed, and then ends are sent. -/
theorem printText_ends (hl : image.Laid) (h : Shown image s u) {text : String}
    (hmem : text ∈ KernelImage.messages) (hpercent : text ≠ "%")
    (writes : List (BitVec 16 × BitVec 8)) :
    Returns (do printText image text; Interrupts.writePorts writes) s fun _ t =>
      Handled image (u.print text) (Devices.outAll writes) s t :=
  (printText_spec hl h hmem hpercent).bind fun _ _ ht => ht.writePorts writes

/-- On the kernel's console the two buffers are one, and the swap does nothing. -/
theorem swap_spec {scr : Screen} (h : Showing image s scr) :
    Returns (focus (machinePart consolePart) vgaSwapBuffers) s fun _ t =>
      t.mem = s.mem ∧ t.statics = s.statics := by
  have hready := h.shows.ready
  rw [returns_focus]
  refine (vgaSwapBuffers_single hready.sound hready.spans ?_).mono fun _ v hv => ⟨hv.1, ?_⟩
  · rw [h.shows.buffer]
    exact h.front
  · show { s.statics with console := v.statics } = s.statics
    rw [hv.2]
    rfl

theorem pitHandler_spec (hl : image.Laid) (h : Shown image s u) :
    Returns pitHandler s fun _ t => Handled image u.tick (Devices.outAll [(0x20, 0x20)]) s t := by
  have hend : x86PICSendEOIPIC1 = writePorts [(0x20, 0x20)] := rfl
  rw [pitHandler, hend]
  refine Returns.bind (P := fun _ t1 => t1.mem = s.mem ∧
    t1.statics = { s.statics with screenTimer := u.timer + 1 })
    (returns_modifyStatics.mpr ⟨rfl, by rw [h.timer]⟩) fun _ t1 h1 => ?_
  obtain ⟨hm1, hstat1⟩ := h1
  rw [returns_bind, returns_getStatics]
  refine Returns.bind (P := fun _ t2 => t2.mem = s.mem ∧
    t2.statics = { s.statics with screenTimer := u.tick.timer }) ?_ fun _ t2 h2 => ?_
  · rw [hstat1]
    by_cases hround : u.timer + 1 = 16
    · have htimer : u.tick.timer = 0 := if_pos hround
      rw [onlyIf, if_pos hround, htimer]
      refine Returns.bind (P := fun _ t2 => t2.mem = s.mem ∧
        t2.statics = { s.statics with screenTimer := 0 })
        (returns_modifyStatics.mpr ⟨hm1, by rw [hstat1]⟩) fun _ t2 h2 => ?_
      obtain ⟨hm2, hstat2⟩ := h2
      refine (swap_spec (h.same hl hm2 (by rw [hstat2]))).mono fun _ t3 h3 => ?_
      exact ⟨h3.1.trans hm2, h3.2.trans hstat2⟩
    · have htimer : u.tick.timer = u.timer + 1 := if_neg hround
      rw [onlyIf, if_neg hround, returns_pure, htimer]
      exact ⟨hm1, hstat1⟩
  obtain ⟨hm2, hstat2⟩ := h2
  have hticked : Handled image u.tick id s t2 := by
    refine ⟨⟨?_, h.same hl hm2 (by rw [hstat2]), ?_, ?_⟩, fun a _ => congrFun hm2 a, ?_⟩
    · rw [hm2]
      exact h.texts
    · rw [hstat2]
      exact h.keyboard
    · rw [hstat2]
    · rw [hstat2]
      rfl
  exact hticked.writePorts _

theorem kiBackspace_spec {scr : Screen} (h : Showing image s scr) :
    Returns kiBackspace s fun _ t => Showing image t scr.backspace ∧
      image.ChangedIn [.screen] s.mem t.mem ∧
      t.statics = { s.statics with console := t.statics.console } := by
  rw [kiBackspace, returns_focus]
  refine (internalVgaBackspace_settings.returns h.shows.backspace).mono fun _ v hv => ?_
  obtain ⟨⟨hshows, hm⟩, hsettings⟩ := hv
  have hfront := VgaContext.front_of_settings hsettings
  refine ⟨⟨?_, hfront.trans h.front⟩, fun a ha => hm a (ha .screen (List.mem_singleton_self _)), rfl⟩
  rw [(machinePart consolePart).get_set]
  exact hshows

theorem checkStatus_spec (hl : image.Laid) (h : Shown image s u) {input : BitVec 8}
    (hinput : (input &&& 0x7F).toNat < ps2Names.length) :
    Returns (checkStatus image input) s fun _ t =>
      Showing image t (if input = 0x0E then u.terminal.screen.backspace else u.terminal.screen) ∧
      image.ChangedIn [.screen] s.mem t.mem ∧
      t.statics = { s.statics with
        console := t.statics.console
        keyboard := u.terminal.keyboard.after input } := by
  rw [checkStatus]
  refine Returns.bind (P := fun isBackspace t1 => isBackspace = decide (input = 0x0E) ∧
    t1.mem = s.mem ∧ t1.statics = { s.statics with
      keyboard := u.terminal.keyboard.after input }) ?_ fun isBackspace t1 h1 => ?_
  · rw [returns_focus]
    refine (statusCodeKey_spec h.texts.keys hinput).mono fun isBackspace v hv => ?_
    obtain ⟨hback, hstat, hm⟩ := hv
    refine ⟨hback, hm, ?_⟩
    show { s.statics with keyboard := v.statics } = _
    rw [hstat, ← h.keyboard]
    rfl
  obtain ⟨rfl, hm1, hstat1⟩ := h1
  have hshow1 := h.same hl hm1 (by rw [hstat1])
  by_cases hback : input = 0x0E
  · rw [onlyIf, if_pos (decide_eq_true hback), if_pos hback]
    refine (kiBackspace_spec hshow1).mono fun _ t2 h2 => ?_
    obtain ⟨hshow2, hm2, hstat2⟩ := h2
    rw [hm1] at hm2
    exact ⟨hshow2, hm2, by rw [hstat2, hstat1]⟩
  · rw [onlyIf, if_neg (by rw [decide_eq_true_eq]; exact hback), if_neg hback, returns_pure]
    exact ⟨hshow1, fun a _ => congrFun hm1 a, by rw [hstat1]⟩

theorem convert_spec (hkeys : image.keys.In s.mem) {input : BitVec 8}
    (hinput : (input &&& 0x7F).toNat < ps2Names.length) :
    Returns (focus (machinePart keyboardPart) (internalConvertPS2KeyToASCII image.keys input)) s
      fun letter t => letter = s.statics.keyboard.letter input ∧ t.mem = s.mem ∧
        t.statics = s.statics := by
  rw [returns_focus]
  refine (internalConvertPS2KeyToASCII_spec hkeys hinput).mono fun letter v hv => ?_
  obtain ⟨hletter, hstat, hm⟩ := hv
  refine ⟨hletter, hm, ?_⟩
  show { s.statics with keyboard := v.statics } = s.statics
  rw [hstat]
  rfl

/-- The buffer is a text of one letter, or the empty one. -/
theorem storeLetter_spec (hl : image.Laid) (letter : BitVec 8) :
    Returns (storeLetter image.letter letter) s fun _ t =>
      (letter ≠ 0 → CString t.mem image.letter [letter]) ∧
      image.ChangedIn [.letter] s.mem t.mem ∧ t.statics = s.statics := by
  have hspan : Spans image.letter 2 := hl.spans .letter
  have h1 : phys (image.letter + 1) = phys image.letter + 1 := phys_add hspan (by decide : 1 < 2)
  simp only [storeLetter, returns_bind, returns_store8, Machine.note_mem, Machine.setMem_mem, h1]
  refine ⟨fun hletter => ⟨hl.nonnull.1, by simp, fun k hk => ?_, fun c hc => ?_⟩, fun a ha => ?_,
    rfl⟩
  · have hphys : phys (image.letter + BitVec.ofNat 64 k) = phys image.letter + k :=
      phys_add hspan (Nat.lt_succ_of_le hk)
    have hcase : k = 0 ∨ k = 1 := by
      simp only [List.length_singleton] at hk
      omega
    rw [hphys]
    rcases hcase with rfl | rfl
    · rw [Nat.add_zero (phys image.letter), write8_outside (by omega), write8_same]
      rfl
    · rw [write8_same]
      rfl
  · rw [List.mem_singleton.mp hc]
    exact hletter
  · have hno : ¬ (phys image.letter ≤ a ∧ a < phys image.letter + 2) :=
      ha .letter (List.mem_singleton_self _)
    rw [write8_outside (by omega), write8_outside (by omega), write8_outside (by omega),
      write8_outside (by omega)]

/-- What a key types is not the start of a directive. -/
theorem letter_plain {context : PS2KeyboardContext} {input : BitVec 8}
    (hletter : context.letter input ≠ 0) (hmake : input &&& 0x7F = input)
    (hinput : (input &&& 0x7F).toNat < ps2Names.length) :
    context.letter input ≠ ch '%' := by
  rw [hmake] at hinput
  exact typedChars_plain ((mem_typedChars_iff _).mpr ⟨hletter, context, input, hinput, rfl⟩)

theorem printLetter_spec (hl : image.Laid) (ht : image.Texts s.mem) {scr : Screen}
    (hs : Showing image s scr) {context : PS2KeyboardContext} {code : BitVec 8}
    (hinput : (code &&& 0x7F).toNat < ps2Names.length)
    (htext : context.letter code ≠ 0 → CString s.mem image.letter [context.letter code]) :
    Returns (onlyIf (context.letter code ≠ 0 ∧ code &&& 0x7F = code) (do
      let _ ← kiPrintFmt image image.letter
      pure ())) s fun _ t =>
      Showing image t (if context.letter code ≠ 0 ∧ code &&& 0x7F = code then
        scr.type (context.letter code) else scr) ∧
      image.ChangedIn [.screen, .digits] s.mem t.mem ∧
      t.statics = { s.statics with console := t.statics.console } := by
  by_cases hprint : context.letter code ≠ 0 ∧ code &&& 0x7F = code
  · have hapart : ∀ k, k ≤ [context.letter code].length → ∀ x, x ≠ .letter →
        ¬ image.In x (phys (image.letter + BitVec.ofNat 64 k)) := by
      intro k hk x hx
      refine hl.apart .letter x hx.symm _ ?_
      have hphys : phys (image.letter + BitVec.ofNat 64 k) = phys image.letter + k :=
        phys_add (hl.spans .letter) (Nat.lt_succ_of_le hk)
      rw [hphys]
      exact ⟨Nat.le_add_right _ _, Nat.add_lt_add_left (Nat.lt_succ_of_le hk) _⟩
    rw [onlyIf, if_pos hprint, if_pos hprint]
    refine (kiPrintFmt_spec hl ht hs (htext hprint.1)
      (fun k hk => ⟨hapart k hk _ (by decide), hapart k hk _ (by decide)⟩)
      (fun c hc => ?_)).bind fun _ t h => ?_
    · rw [List.mem_singleton.mp hc]
      exact letter_plain hprint.1 hprint.2 hinput
    · exact returns_pure.mpr h
  · rw [onlyIf, if_neg hprint, if_neg hprint, returns_pure]
    exact ⟨hs, KernelImage.ChangedIn.refl, rfl⟩

theorem ps2KeyboardHandler_spec (hl : image.Laid) (h : Shown image s u) {code : BitVec 8}
    (hcode : s.statics.devices.advance.takeKey.1 = code)
    (hinput : (code &&& 0x7F).toNat < ps2Names.length) :
    Returns (ps2KeyboardHandler image) s fun _ t =>
      Handled image (u.press code) (Handler.drive .ps2KeyboardHandler) s t := by
  have hend : x86PICSendEOIPIC1 = writePorts [(0x20, 0x20)] := rfl
  rw [ps2KeyboardHandler, hend]
  refine Returns.bind (P := fun c t1 => c = code ∧ t1.mem = s.mem ∧
    t1.statics = { s.statics with devices := s.statics.devices.advance.takeKey.2 })
    (returns_x86inb.mpr ⟨hcode, rfl, rfl⟩) fun c t1 h1 => ?_
  obtain ⟨rfl, hm1, hstat1⟩ := h1
  have hshown1 : Shown image t1 u := by
    refine ⟨?_, h.same hl hm1 (by rw [hstat1]), ?_, ?_⟩
    · rw [hm1]
      exact h.texts
    · rw [hstat1]
      exact h.keyboard
    · rw [hstat1]
      exact h.timer
  refine (checkStatus_spec hl hshown1 hinput).bind fun _ t2 h2 => ?_
  obtain ⟨hshow2, hm2, hstat2⟩ := h2
  refine (convert_spec (hshown1.texts.congr hm2).keys hinput).bind fun letter t3 h3 => ?_
  obtain ⟨rfl, hm3, hstat3⟩ := h3
  refine (storeLetter_spec hl _).bind fun _ t4 h4 => ?_
  obtain ⟨htext, hm4, hstat4⟩ := h4
  have hkeyboard : t2.statics.keyboard = u.terminal.keyboard.after c := by rw [hstat2]
  rw [hkeyboard] at htext ⊢
  rw [hm1] at hm2
  rw [hm3] at hm4
  have hm : image.ChangedIn handlerAreas s.mem t4.mem :=
    (hm2.mono (by simp [handlerAreas])).trans (hm4.mono (by simp [handlerAreas]))
  have hshow4 := hshow2.congr hl hm4 (by decide) (t := t4) (by rw [hstat4, hstat3])
  refine (printLetter_spec hl (h.texts.congr hm) hshow4 hinput htext).bind fun _ t5 h5 => ?_
  obtain ⟨hshow5, hm5, hstat5⟩ := h5
  have hlast : image.ChangedIn handlerAreas t4.mem t5.mem := hm5.mono (by simp [handlerAreas])
  have hall := hm.trans hlast
  have hstat : t5.statics = { s.statics with
      console := t5.statics.console
      keyboard := u.terminal.keyboard.after c
      devices := s.statics.devices.advance.takeKey.2 } := by
    rw [hstat5, hstat4, hstat3, hstat2, hstat1]
  have hpressed : Handled image (u.press c) (fun d => d.advance.takeKey.2) s t5 := by
    refine ⟨⟨h.texts.congr hall, hshow5, ?_, ?_⟩, hall, ?_⟩
    · rw [hstat]
      rfl
    · rw [hstat]
      exact h.timer
    · rw [hstat]
  exact hpressed.writePorts _

theorem handle_spec (hl : image.Laid) (h : Shown image s u) {handler : Handler}
    (hstop : ¬ handler.Stops) {code : BitVec 8}
    (hcode : handler = .ps2KeyboardHandler → s.statics.devices.advance.takeKey.1 = code ∧
      (code &&& 0x7F).toNat < ps2Names.length) :
    Returns (handle image handler) s fun _ t =>
      Handled image (handler.serve code u) handler.drive s t := by
  have hpic1 : genericHandlerPIC1 image = (do
      printText image "Unhandled Interrupt! (PIC1) \n"
      writePorts (Handler.ends .genericHandlerPIC1)) := rfl
  have hpic2 : genericHandlerPIC2 image = (do
      printText image "Unhandled Interrupt! (PIC2) \n"
      writePorts (Handler.ends .genericHandlerPIC2)) := rfl
  cases handler with
  | divideByZero => exact printText_spec hl h (by simp [KernelImage.messages]) (by simp)
  | genericHandler => exact printText_spec hl h (by simp [KernelImage.messages]) (by simp)
  | genericHandlerPIC1 =>
    rw [handle, hpic1]
    exact printText_ends hl h (by simp [KernelImage.messages]) (by simp) _
  | genericHandlerPIC2 =>
    rw [handle, hpic2]
    exact printText_ends hl h (by simp [KernelImage.messages]) (by simp) _
  | doubleFaultHandler => exact absurd (Or.inl rfl) hstop
  | pageFaultHandler => exact absurd (Or.inr rfl) hstop
  | pitHandler => exact pitHandler_spec hl h
  | ps2KeyboardHandler =>
    obtain ⟨hbyte, hindex⟩ := hcode rfl
    exact ps2KeyboardHandler_spec hl h hbyte hindex

theorem handle_stops {handler : Handler} (hstop : handler.Stops)
    {Q : Unit → Machine KernelStatics → Prop} : ¬ Returns (handle image handler) s Q := by
  rcases hstop with rfl | rfl
  · exact not_returns_stop
  · exact not_returns_stop

end Handled

/-! ## An interrupt -/

section Deliver

variable {image : KernelImage} {s t : Machine KernelStatics} {u : Session}
  {f : Devices → Devices}

theorem Handled.tables (h : Handled image u f s t) (hl : image.Laid)
    (ht : Tables image s.mem s.statics) : Tables image t.mem t.statics :=
  ht.congr hl h.memory (by decide) (by decide) (by rw [h.statics]) (by rw [h.statics])

theorem deliver_spec (hl : image.Laid) (ht : Tables image s.mem s.statics) (h : Shown image s u)
    {v : BitVec 8} (hv : v ≠ 0xFF) (hstop : ¬ (handlerOf v).Stops) {code : BitVec 8}
    (hcode : handlerOf v = .ps2KeyboardHandler → s.statics.devices.advance.takeKey.1 = code ∧
      (code &&& 0x7F).toNat < ps2Names.length) :
    Returns (deliver image v false) s fun _ t =>
      Handled image ((handlerOf v).serve code u) (handlerOf v).drive s t := by
  have hentered : entered image s v = some (handlerOf v) := by rw [entered_eq hl ht, if_neg hv]
  rw [deliver, returns_bind, returns_get]
  simp only [hentered]
  refine Returns.bind (P := fun _ t1 => t1.mem = s.mem ∧
    t1.statics = { s.statics with interruptFlag := false })
    (returns_kiRestoreInterrupts.mpr ⟨rfl, rfl⟩) fun _ t1 h1 => ?_
  obtain ⟨hm1, hstat1⟩ := h1
  have hshown1 : Shown image t1 u := by
    refine ⟨?_, h.same hl hm1 (by rw [hstat1]), ?_, ?_⟩
    · rw [hm1]
      exact h.texts
    · rw [hstat1]
      exact h.keyboard
    · rw [hstat1]
      exact h.timer
  have hcode1 : handlerOf v = .ps2KeyboardHandler →
      t1.statics.devices.advance.takeKey.1 = code ∧ (code &&& 0x7F).toNat < ps2Names.length := by
    rw [hstat1]
    exact hcode
  refine (handle_spec hl hshown1 hstop hcode1).bind fun _ t2 h2 => ?_
  rw [if_neg Bool.false_ne_true, returns_kiRestoreInterrupts]
  have hm2 := h2.memory
  rw [hm1] at hm2
  refine ⟨⟨h2.shown.texts, ⟨h2.shown.screen.shows, h2.shown.screen.front⟩, h2.shown.keyboard,
    h2.shown.timer⟩, hm2, ?_⟩
  rw [h2.statics, hstat1]

theorem deliver_stops (hl : image.Laid) (ht : Tables image s.mem s.statics) {v : BitVec 8}
    {errorCode : Bool} (hv : v = 0xFF ∨ (handlerOf v).Stops ∨ errorCode = true)
    {Q : Unit → Machine KernelStatics → Prop} : ¬ Returns (deliver image v errorCode) s Q := by
  rw [deliver, returns_bind, returns_get]
  by_cases hff : v = 0xFF
  · have hentered : entered image s v = none := by rw [entered_eq hl ht, if_pos hff]
    simp only [hentered]
    exact not_returns_stop
  · have hentered : entered image s v = some (handlerOf v) := by rw [entered_eq hl ht, if_neg hff]
    simp only [hentered]
    intro h
    rw [returns_bind, returns_kiRestoreInterrupts, returns_bind] at h
    rcases hv.resolve_left hff with hstop | hcode
    · exact handle_stops hstop h
    · rw [if_pos hcode] at h
      obtain ⟨_, _, -, hreturn⟩ := h
      exact not_returns_stop hreturn

/-- The vectors of the two faults are the ones with a handler that does not come back. -/
theorem handlerOf_stops (v : BitVec 8) : (handlerOf v).Stops ↔ v = 0x08 ∨ v = 0x0E := by
  revert v
  decide +kernel

/-- Whatever the vector, the processor finds the handler that was meant for it, which does to the
session and to the devices what it is there for and leaves the tables as they are.  It does not come
back from the two faults, nor from an exception with an error code, and the last vector has no
handler. -/
theorem deliver_dispatches (hl : image.Laid) (ht : Tables image s.mem s.statics)
    (h : Shown image s u) (v : BitVec 8) (errorCode : Bool) {c : BitVec 8}
    (hcode : handlerOf v = .ps2KeyboardHandler → s.statics.devices.advance.takeKey.1 = c ∧
      (c &&& 0x7F).toNat < ps2Names.length) :
    if v = 0xFF ∨ v = 0x08 ∨ v = 0x0E ∨ errorCode = true then
      ¬ Returns (deliver image v errorCode) s fun _ _ => True
    else Returns (deliver image v errorCode) s fun _ t => Tables image t.mem t.statics ∧
      Handled image ((handlerOf v).serve c u) (handlerOf v).drive s t := by
  have hstops := handlerOf_stops v
  by_cases hv : v = 0xFF ∨ v = 0x08 ∨ v = 0x0E ∨ errorCode = true
  · rw [if_pos hv]
    refine deliver_stops hl ht (hv.imp_right fun hv => ?_)
    rw [hstops, or_assoc]
    exact hv
  · obtain ⟨hff, hdf, hpf, hplain⟩ : v ≠ 0xFF ∧ v ≠ 0x08 ∧ v ≠ 0x0E ∧ errorCode = false := by
      simpa using hv
    have hstop : ¬ (handlerOf v).Stops := mt hstops.mp (not_or.mpr ⟨hdf, hpf⟩)
    rw [if_neg hv, hplain]
    exact (deliver_spec hl ht h hff hstop hcode).mono fun _ t hh => ⟨hh.tables hl ht, hh⟩

/-- Once the first processor has been started, the tables that it has been given lead every vector
but the last to its handler, the lower half is gone, the controllers and the timer are set as they
are meant to be, and the keyboard is announced unless a byte waited before.  On the other processors
interrupts are turned on, and nothing else is done. -/
theorem kiStartupProcessorMachineDependent_sets {initialP4Table : Ptr} {scr : Screen}
    (h : Loaded image initialP4Table s scr) :
    (Returns (kiStartupProcessorMachineDependent image initialP4Table 0) s fun _ t =>
      (∀ v, entered image t v = if v = 0xFF then none else some (handlerOf v)) ∧
      (∀ a, translate t.mem image.p4Table.toNat a = bootTranslation false a) ∧
      Showing image t ((chars readyMessage).foldl Screen.type scr) ∧
      t.statics.devices.settings = started ∧ t.statics.interruptFlag = true ∧
      (waiting s.statics.devices = [] → t.statics.devices.Signals) ∧
      (∀ code, (waiting s.statics.devices).head? = some code → t.statics.devices.Waits code) ∧
      image.ChangedIn startupAreas s.mem t.mem) ∧
    ∀ core, core ≠ 0 →
      Returns (kiStartupProcessorMachineDependent image initialP4Table core) s fun _ t =>
        t.mem = s.mem ∧ t.statics = { s.statics with interruptFlag := true } := by
  refine ⟨?_, fun core hcore => ?_⟩
  · refine (kiStartupProcessorMachineDependent_starts h).mono fun _ t ht => ?_
    obtain ⟨hrun, hm, -, -, -, hsignals, hwaits⟩ := ht
    exact ⟨entered_eq h.laid hrun.tables, hrun.mapped.translate_eq h.layout, hrun.shows,
      hrun.settings, hrun.flag, hsignals, hwaits, hm⟩
  · rw [kiStartupProcessorMachineDependent, onlyIf, if_neg hcore]
    simp only [returns_bind, returns_kiRestoreInterrupts, returns_pure, and_self]

/-- Both keyboard vectors lead to the handler, and the key that comes later is announced. -/
theorem kernelMachine_sets :
    Returns (kiStartupProcessorMachineDependent kernelImage 0xFFFFFF8000010000 0) kernelMachine
      fun _ t => entered kernelImage t 0x21 = some .ps2KeyboardHandler ∧
        entered kernelImage t 0x2C = some .ps2KeyboardHandler ∧
        translate t.mem 0x10000 0xB8000 = none ∧ t.statics.devices.Signals := by
  refine (kiStartupProcessorMachineDependent_sets kernelMachine_loaded).1.mono fun _ t ht => ?_
  obtain ⟨hentered, htranslate, -, -, -, hsignals, -⟩ := ht
  exact ⟨hentered 0x21, hentered 0x2C, htranslate 0xB8000, hsignals (by decide)⟩

theorem kernelMachine_dispatches :
    Returns (kiStartupProcessorMachineDependent kernelImage 0xFFFFFF8000010000 0) kernelMachine
      fun _ t => Returns (deliver kernelImage 0x20 false) t fun _ w =>
        w.statics.screenTimer = 1 := by
  refine (kiStartupProcessorMachineDependent_starts kernelMachine_loaded).mono fun _ t ht => ?_
  obtain ⟨hrun, -, -, htimer, -⟩ := ht
  generalize (chars readyMessage).foldl Screen.type _ = scr at hrun
  have hshown : Shown kernelImage t ⟨0, ⟨t.statics.keyboard, scr⟩⟩ :=
    ⟨hrun.texts, hrun.shows, rfl, htimer⟩
  have hdeliver := deliver_dispatches kernelImage_laid hrun.tables hshown 0x20 false (c := 0)
    fun hne => absurd hne (by decide)
  rw [if_neg (by decide)] at hdeliver
  refine hdeliver.mono fun _ w hw => ?_
  exact hw.2.shown.timer

end Deliver

end Interrupts

end FeralKernel
