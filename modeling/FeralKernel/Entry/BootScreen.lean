import FeralKernel.Console.Lines
import FeralKernel.Entry.Processor
import FeralKernel.Entry.TagBlock
import FeralKernel.Lib.BinFuncs

/-!
# The first screen

`kern_init` of `kern/entry/mb2entry.c` up to its call of `KiSystemStartup`.  Behind the loop over
the tags it sets up the screen and prints what it has found: the size of the screen, the name of
the loader, the command line, and what `cpuid` says of the processor, through the functions of
`kern/arch/x86_64/boot/helper.asm`.
-/

namespace FeralKernel

open Verif.Program Verif.Bytes

/-! ## The code -/

/-- Where the compiler has put the literals and the local variables of `kern_init`, and what the
framebuffer variables hold before they are set. -/
structure KernInitCode where
  literal : String → Ptr
  bufBeginAddr : Ptr
  bufEndAddr : Ptr
  uninitialized : FramebufferInfo
  kernelEnd : Ptr
  cpuid : Cpuid

def internalPrintRegister (reg : BitVec 32) : Kern VgaContext Unit :=
  forRange (fun i _ =>
    vgaAutoEntry vgaGreen vgaBlack ((reg >>> (i * 8)).setWidth 8 &&& 0xFF)) 4 0 ()

def internalPrintCpuVendor (code : KernInitCode) (part1 part2 part3 : BitVec 32) :
    Kern VgaContext Unit := do
  vgaAutoPrint vgaGreen vgaBlack (code.literal "CPU Vendor: ")
  internalPrintRegister part1
  internalPrintRegister part2
  internalPrintRegister part3
  vgaAutoPrintln vgaWhite vgaBlack (code.literal "")

/-- The loop over the three calls of `cpuid_brand_name`. -/
def printBrandName (code : KernInitCode) : Kern VgaContext Unit :=
  forRange (fun index _ => do
    let (part1, part2, part3, part4) :=
      cpuidBrandName code.cpuid (0x80000002 + BitVec.ofNat 32 index)
    internalPrintRegister part1
    internalPrintRegister part2
    internalPrintRegister part3
    internalPrintRegister part4) 3 0 ()

/-- What is printed before `cpuid` is asked. -/
def printFound (code : KernInitCode) (fb : FramebufferInfo) (bootloaderName commandLine : Ptr) :
    Kern VgaContext Unit := do
  vgaAutoPrintln vgaWhite vgaBlack (code.literal "Starting initial kernel setup...")
  let _ ← kiItoa (fb.framebufferWidth.setWidth 64) code.bufBeginAddr
  let _ ← kiItoa (fb.framebufferHeight.setWidth 64) code.bufEndAddr
  vgaAutoPrint vgaWhite vgaBlack (code.literal "VGA resolution is : ")
  vgaAutoPrint vgaGreen vgaBlack code.bufBeginAddr
  vgaAutoPrint vgaWhite vgaBlack (code.literal "x")
  vgaAutoPrintln vgaRed vgaBlack code.bufEndAddr
  vgaAutoPrint vgaLightGrey vgaBlack (code.literal "Found bootloader: ")
  vgaAutoPrintln vgaGreen vgaBlack bootloaderName
  vgaAutoPrint vgaLightGrey vgaBlack (code.literal "Found command line: ")
  vgaAutoPrintln vgaGreen vgaBlack commandLine

def printProcessor (code : KernInitCode) : Kern VgaContext Unit := do
  let (part1, part2, part3) := cpuidVendorFunc code.cpuid
  internalPrintCpuVendor code part1 part2 part3
  printBrandName code
  vgaAutoPrintln vgaWhite vgaBlack (code.literal "")
  onlyIf (actualFamily (cpuidFamilyNumber code.cpuid) ≠ cpuFamilyZen)
    (vgaAutoPrintln vgaRed vgaBlack (code.literal "Unsupported CPU"))

/-- `kern_init` up to its call of `KiSystemStartup`. -/
def kernInit (code : KernInitCode) (mbInfo : BitVec 32) : Kern VgaContext KernInit := do
  let init ← readTags code.kernelEnd mbInfo
  let fb := init.framebuffer.getD code.uninitialized
  vgaPrepareEnvironment fb.framebuffer fb.framebufferBPP fb.framebufferWidth fb.framebufferHeight
    fb.framebufferTextOnly
  kiBlankVgaScreen fb.framebufferHeight fb.framebufferWidth vgaBlack
  printFound code fb (init.bootloaderName.getD (code.literal "Unknown"))
    (init.commandLine.getD (code.literal ""))
  printProcessor code
  vgaSetCursorEnabled true
  vgaTraceCharacters true
  vgaMoveCursor 0 24
  pure init

/-! ## What is printed -/

section Printing

/-- The four characters of a register, the lowest first. -/
def registerText (reg : BitVec 32) : List (BitVec 8) :=
  (List.range' 0 4).map fun i => (reg >>> (i * 8)).setWidth 8 &&& 0xFF

def cpuVendor (cpuid : Cpuid) : List (BitVec 8) :=
  registerText (cpuid 0).ebx ++ (registerText (cpuid 0).edx ++ registerText (cpuid 0).ecx)

/-- The part of the name for the value `leaf` of `eax`. -/
def brandPart (cpuid : Cpuid) (leaf : BitVec 32) : List (BitVec 8) :=
  registerText (cpuid leaf).eax ++ (registerText (cpuid leaf).ebx ++
    (registerText (cpuid leaf).ecx ++ registerText (cpuid leaf).edx))

def cpuBrand (cpuid : Cpuid) : List (BitVec 8) :=
  (List.range' 0 3).flatMap fun index => brandPart cpuid (0x80000002 + BitVec.ofNat 32 index)

def foundLines (fb : FramebufferInfo) (d : BootTags) : List (List Cell) :=
  [coloured vgaWhite (chars "VGA resolution is : ") ++
      coloured vgaGreen (numeral 10 fb.framebufferWidth.toNat) ++ coloured vgaWhite (chars "x") ++
      coloured vgaRed (numeral 10 fb.framebufferHeight.toNat),
    coloured vgaLightGrey (chars "Found bootloader: ") ++ coloured vgaGreen d.bootloaderName,
    coloured vgaLightGrey (chars "Found command line: ") ++ coloured vgaGreen d.commandLine]

def processorLines (cpuid : Cpuid) : List (List Cell) :=
  [coloured vgaGreen (chars "CPU Vendor: ") ++ coloured vgaGreen (cpuVendor cpuid),
    coloured vgaGreen (cpuBrand cpuid)] ++
    if TakenForZen (cpuidFamilyNumber cpuid) then [] else [coloured vgaRed (chars "Unsupported CPU")]

def bootLines (cpuid : Cpuid) (fb : FramebufferInfo) (d : BootTags) : List (List Cell) :=
  coloured vgaWhite (chars "Starting initial kernel setup...") ::
    (foundLines fb d ++ processorLines cpuid)

def letters (text : List (BitVec 8)) : List VgaCall :=
  text.map (.autoEntry vgaGreen vgaBlack)

theorem vgaCalls_singleton (c : VgaCall) : vgaCalls [c] = c.run := by
  rw [vgaCalls, vgaCalls, bind_pure_unit]

theorem letters_append (a b : List (BitVec 8)) : letters (a ++ b) = letters a ++ letters b :=
  List.map_append

theorem forRange_vgaCalls (calls : Nat → List VgaCall) : ∀ n i : Nat,
    forRange (fun i _ => vgaCalls (calls i)) n i () =
      vgaCalls ((List.range' i n).flatMap calls) := by
  intro n
  induction n with
  | zero =>
    intro i
    rw [forRange, List.range'_zero, List.flatMap_nil, vgaCalls]
  | succ n ih =>
    intro i
    rw [forRange, List.range'_succ, List.flatMap_cons, vgaCalls_append]
    refine congrArg (vgaCalls (calls i) >>= ·) (funext fun _ => ih (i + 1))

theorem internalPrintRegister_eq (reg : BitVec 32) :
    internalPrintRegister reg = vgaCalls (letters (registerText reg)) := by
  have hround : (fun (i : Nat) (_ : Unit) =>
      vgaAutoEntry vgaGreen vgaBlack ((reg >>> (i * 8)).setWidth 8 &&& 0xFF)) = fun i _ =>
        vgaCalls (letters [(reg >>> (i * 8)).setWidth 8 &&& 0xFF]) := by
    funext i _
    exact (vgaCalls_singleton (.autoEntry vgaGreen vgaBlack _)).symm
  rw [internalPrintRegister, hround, forRange_vgaCalls, registerText]
  rfl

theorem printBrandName_eq (code : KernInitCode) :
    printBrandName code = vgaCalls (letters (cpuBrand code.cpuid)) := by
  have hround : ∀ leaf : BitVec 32, (do
      internalPrintRegister (code.cpuid leaf).eax
      internalPrintRegister (code.cpuid leaf).ebx
      internalPrintRegister (code.cpuid leaf).ecx
      internalPrintRegister (code.cpuid leaf).edx) =
        vgaCalls (letters (brandPart code.cpuid leaf)) := by
    intro leaf
    rw [brandPart, letters_append, letters_append, letters_append, vgaCalls_append,
      vgaCalls_append, vgaCalls_append]
    simp only [internalPrintRegister_eq]
  have hloop := forRange_vgaCalls (fun index =>
    letters (brandPart code.cpuid (0x80000002 + BitVec.ofNat 32 index))) 3 0
  rw [cpuBrand, letters, List.map_flatMap]
  refine Eq.trans ?_ hloop
  refine congrArg (forRange · 3 0 ()) (funext fun index => funext fun _ => ?_)
  exact hround (0x80000002 + BitVec.ofNat 32 index)

/-- What is printed once the numbers have been converted. -/
def foundCalls (code : KernInitCode) (bootloaderName commandLine : Ptr) : List VgaCall :=
  [.autoPrint vgaWhite vgaBlack (code.literal "VGA resolution is : "),
    .autoPrint vgaGreen vgaBlack code.bufBeginAddr,
    .autoPrint vgaWhite vgaBlack (code.literal "x"),
    .autoPrintln vgaRed vgaBlack code.bufEndAddr,
    .autoPrint vgaLightGrey vgaBlack (code.literal "Found bootloader: "),
    .autoPrintln vgaGreen vgaBlack bootloaderName,
    .autoPrint vgaLightGrey vgaBlack (code.literal "Found command line: "),
    .autoPrintln vgaGreen vgaBlack commandLine]

def vendorCalls (code : KernInitCode) : List VgaCall :=
  .autoPrint vgaGreen vgaBlack (code.literal "CPU Vendor: ") ::
    (letters (cpuVendor code.cpuid) ++ [.autoPrintln vgaWhite vgaBlack (code.literal "")])

def brandCalls (code : KernInitCode) : List VgaCall :=
  letters (cpuBrand code.cpuid) ++ [.autoPrintln vgaWhite vgaBlack (code.literal "")]

def familyCalls (code : KernInitCode) : List VgaCall :=
  if actualFamily (cpuidFamilyNumber code.cpuid) = cpuFamilyZen then []
  else [.autoPrintln vgaRed vgaBlack (code.literal "Unsupported CPU")]

theorem printFound_eq (code : KernInitCode) (fb : FramebufferInfo) (name line : Ptr) :
    printFound code fb name line = (do
      vgaCalls [.autoPrintln vgaWhite vgaBlack (code.literal "Starting initial kernel setup...")]
      let _ ← kiItoa (fb.framebufferWidth.setWidth 64) code.bufBeginAddr
      let _ ← kiItoa (fb.framebufferHeight.setWidth 64) code.bufEndAddr
      vgaCalls (foundCalls code name line)) := by
  simp only [printFound, foundCalls, vgaCalls, VgaCall.run, bind_pure_unit]

theorem printProcessor_eq (code : KernInitCode) : printProcessor code =
    vgaCalls (vendorCalls code ++ (brandCalls code ++ familyCalls code)) := by
  have hfamily : onlyIf (actualFamily (cpuidFamilyNumber code.cpuid) ≠ cpuFamilyZen)
      (vgaAutoPrintln vgaRed vgaBlack (code.literal "Unsupported CPU")) =
        vgaCalls (familyCalls code) := by
    rw [familyCalls]
    by_cases hzen : actualFamily (cpuidFamilyNumber code.cpuid) = cpuFamilyZen
    · rw [onlyIf_neg (not_not_intro hzen), if_pos hzen, vgaCalls]
    · rw [onlyIf_pos hzen, if_neg hzen, vgaCalls_singleton, VgaCall.run]
  rw [printProcessor, hfamily, printBrandName_eq]
  simp only [cpuidVendorFunc, internalPrintCpuVendor, internalPrintRegister_eq, vgaCalls_append,
    vendorCalls, brandCalls, cpuVendor, letters_append, vgaCalls, VgaCall.run, bind_pure_unit,
    bind_assoc]

end Printing

/-! ## Texts in their places -/

/-- `x` is not one of the `n` addresses from `a` on. -/
def Outside (a n x : Nat) : Prop := x < a ∨ a + n ≤ x

namespace FramebufferInfo

variable (fb : FramebufferInfo)

def screen : Ptr := kernPhysToVirt fb.framebuffer

/-- The screen while `kern_init` prints: no cursor is drawn. -/
def layout : Layout := ⟨fb.framebufferWidth.toNat, fb.framebufferHeight.toNat, false, false⟩

def bytes : Nat := 2 * (fb.framebufferWidth.toNat * fb.framebufferHeight.toNat)

end FramebufferInfo

/-- Nothing is drawn at `x`, and no number is written there. -/
structure Kept (code : KernInitCode) (fb : FramebufferInfo) (x : Nat) : Prop where
  screen : Outside (phys fb.screen) fb.bytes x
  bufBeginAddr : Outside (phys code.bufBeginAddr) 17 x
  bufEndAddr : Outside (phys code.bufEndAddr) 17 x

structure KeptText (code : KernInitCode) (fb : FramebufferInfo) (m : Mem) (string : Ptr)
    (text : List (BitVec 8)) : Prop where
  bytes : CString m string text
  kept : ∀ k, k ≤ text.length → Kept code fb (phys (string + BitVec.ofNat 64 k))

/-- A buffer for a number. -/
structure NumberBuffer (fb : FramebufferInfo) (buf : Ptr) : Prop where
  spans : Spans buf 17
  nonnull : buf ≠ 0
  offScreen : ∀ k, k < 17 → Outside (phys fb.screen) fb.bytes (phys buf + k)

/-- A screen of a sound size, and two buffers beside it. -/
structure BootPlaces (code : KernInitCode) (fb : FramebufferInfo) : Prop where
  sound : fb.layout.Sound
  window : InWindow fb.framebuffer fb.bytes
  bufBeginAddr : NumberBuffer fb code.bufBeginAddr
  bufEndAddr : NumberBuffer fb code.bufEndAddr
  apart : ∀ k, k < 17 → Outside (phys code.bufEndAddr) 17 (phys code.bufBeginAddr + k)

/-- The console shows what has been printed so far, and the kept bytes are as in `m`. -/
structure OnPage (code : KernInitCode) (fb : FramebufferInfo) (m : Mem) (p : Printout)
    (t : Machine VgaContext) : Prop where
  layout : t.statics.layout = fb.layout
  buffer : t.statics.swappedBuffer = fb.screen
  highlight : t.statics.highlight = vgaLightBrown
  background : t.statics.background = vgaBlack
  page : Page (shown t) p.lines p.line
  kept : ∀ x, Kept code fb x → t.mem x = m x

section Page

variable {code : KernInitCode} {fb : FramebufferInfo} {m : Mem} {p q : Printout}
  {t : Machine VgaContext} {string buf : Ptr} {text : List (BitVec 8)}

theorem BootPlaces.bytes_pos (h : BootPlaces code fb) : 0 < fb.bytes := by
  have hwidth : 2 ≤ fb.framebufferWidth.toNat := h.sound.width
  have hheight : 0 < fb.framebufferHeight.toNat := h.sound.height
  exact Nat.mul_pos (by decide) (Nat.mul_pos (by omega) hheight)

theorem OnPage.ready (h : OnPage code fb m p t) (hplaces : BootPlaces code fb) : Ready t := by
  have hpos := hplaces.bytes_pos
  refine ⟨?_, ?_, ?_⟩
  · rw [h.layout]
    exact hplaces.sound
  · rw [VgaContext.screenBytes, h.layout, h.buffer]
    exact spans_kernPhysToVirt hplaces.window hpos
  · rw [h.buffer]
    exact kernPhysToVirt_ne_zero hplaces.window hpos

theorem OnPage.holds (h : OnPage code fb m p t) (htext : KeptText code fb m string text) :
    Holds t string text := by
  refine ⟨htext.bytes.congr fun k hk => h.kept _ (htext.kept k hk), fun k hk => ?_⟩
  rw [VgaContext.screenBytes, h.layout, h.buffer]
  exact (htext.kept k hk).screen

/-- Calls whose page fits. -/
theorem OnPage.calls {calls : List VgaCall} (h : OnPage code fb m p t)
    (hplaces : BootPlaces code fb) (hcalls : PrintsAll t p calls q)
    (hfit : q.rows fb.framebufferWidth.toNat ≤ fb.framebufferHeight.toNat) :
    Returns (vgaCalls calls) t fun _ u => OnPage code fb m q u := by
  have hrows : q.rows t.statics.layout.width ≤ t.statics.layout.height := by
    rw [h.layout]
    exact hfit
  refine ((vgaCalls_settings calls).returns
    (hcalls.run_page (h.ready hplaces) (Draws.refl t) h.page hrows)).mono fun _ u hu => ?_
  obtain ⟨⟨scr, hdraws, hpage⟩, hsettings⟩ := hu
  obtain rfl := hdraws.shows
  obtain ⟨hhighlight, hbackground⟩ := VgaContext.colours_of_settings hsettings
  refine ⟨hdraws.layout.trans h.layout, hdraws.buffer.trans h.buffer,
    hhighlight.trans h.highlight, hbackground.trans h.background, hpage, fun x hx => ?_⟩
  refine (hdraws.outside x ?_).trans (h.kept x hx)
  rw [VgaContext.screenBytes, h.layout, h.buffer]
  exact hx.screen

/-- The bytes of the screen are not in the buffer. -/
theorem NumberBuffer.outside (h : NumberBuffer fb buf) {k : Nat} (hk : k < fb.bytes) :
    Outside (phys buf) 17 (phys fb.screen + k) := by
  by_cases hlt : phys fb.screen + k < phys buf
  · exact Or.inl hlt
  · refine Or.inr (Nat.le_of_not_lt fun hin => ?_)
    have hoff := h.offScreen (phys fb.screen + k - phys buf) (by omega)
    rw [Outside] at hoff
    omega

/-- A number is written beside the screen. -/
theorem OnPage.itoa (h : OnPage code fb m p t) (v : BitVec 32) (hbuf : NumberBuffer fb buf)
    (hkept : ∀ x, Kept code fb x → Outside (phys buf) 17 x) :
    Returns (kiItoa (v.setWidth 64) buf) t fun _ u => OnPage code fb m p u ∧
      CString u.mem buf (numeral 10 v.toNat) ∧
      ∀ x, Outside (phys buf) 17 x → u.mem x = t.mem x := by
  have hval : (v.setWidth 64).toNat = v.toNat := by
    have hlt := v.isLt
    rw [BitVec.toNat_setWidth]
    omega
  have hlen : (numeral 10 v.toNat).length ≤ 10 :=
    length_numeral_le (by decide) (by decide) (Nat.lt_trans v.isLt (by decide))
  have hspan : Spans buf ((numeral 10 v.toNat).length + 1) := hbuf.spans.mono (by omega)
  have hspan' : Spans buf ((numeral 10 (v.setWidth 64).toNat).length + 1) := by
    rw [hval]
    exact hspan
  have hitoa := kiItoa_spec (s := t) hspan'
  rw [hval] at hitoa
  refine hitoa.mono fun _ u hu => ?_
  obtain ⟨hmem, ⟨hstatics, -⟩, -⟩ := hu
  have houtside : ∀ x, Outside (phys buf) 17 x → u.mem x = t.mem x := by
    intro x hx
    rw [Outside] at hx
    rw [hmem, block_outside]
    rw [List.length_append, List.length_singleton]
    omega
  refine ⟨⟨?_, ?_, ?_, ?_, ?_, fun x hx => ?_⟩, ?_, houtside⟩
  · rw [hstatics]
    exact h.layout
  · rw [hstatics]
    exact h.buffer
  · rw [hstatics]
    exact h.highlight
  · rw [hstatics]
    exact h.background
  · refine h.page.congr (congrArg VgaContext.layout hstatics) (congrArg VgaContext.spot hstatics)
      fun i hi => ?_
    have hi' : i < t.statics.layout.width * t.statics.layout.height := hi
    rw [h.layout] at hi'
    have hcell : ∀ k, k < fb.bytes →
        u.mem (phys t.statics.swappedBuffer + k) = t.mem (phys t.statics.swappedBuffer + k) := by
      intro k hk
      rw [h.buffer]
      exact houtside _ (hbuf.outside hk)
    have hbytes : fb.bytes = 2 * (fb.layout.width * fb.layout.height) := rfl
    refine Prod.ext ?_ ?_
    · show u.mem (phys u.statics.swappedBuffer + 2 * i) = _
      rw [hstatics]
      exact hcell _ (by omega)
    · show u.mem (phys u.statics.swappedBuffer + (2 * i + 1)) = _
      rw [hstatics]
      exact hcell _ (by omega)
  · rw [houtside x (hkept x hx)]
    exact h.kept x hx
  · rw [hmem]
    exact cstring_block hbuf.nonnull hspan (numeral_visible (by decide) (by decide) _)

end Page

/-! ## The texts -/

def bootLiterals : List String :=
  ["Starting initial kernel setup...", "VGA resolution is : ", "x", "Found bootloader: ",
    "Found command line: ", "CPU Vendor: ", "", "Unsupported CPU", "Unknown"]

theorem bootLiterals_plain : ∀ text ∈ bootLiterals, ∀ c ∈ chars text, Plain c := by
  intro text htext
  simp only [bootLiterals, List.mem_cons, List.not_mem_nil, or_false] at htext
  rcases htext with rfl | rfl | rfl | rfl | rfl | rfl | rfl | rfl | rfl <;>
    simp [chars, ch, Plain]

theorem numeral_plain (n : Nat) : ∀ c ∈ numeral 10 n, Plain c := by
  have hdigit : ∀ d : Fin 10, Plain (digitChar d.val) := by
    unfold Plain
    decide
  have hzero : Plain (ch '0') := hdigit 0
  apply Verif.Cells.numberCells_all (P := Plain) (by decide) hzero
  exact fun d hd => hdigit ⟨d, hd⟩

theorem numeral_ne_nil (n : Nat) : numeral 10 n ≠ [] := by
  rw [numeral]
  split
  · exact List.cons_ne_nil _ _
  · rename_i hn
    rw [Ne, List.reverse_eq_nil_iff, List.map_eq_nil_iff]
    exact Nat.digits_ne_nil_iff_ne_zero.mpr hn

section Texts

variable {code : KernInitCode} {fb : FramebufferInfo} {m : Mem} {p : Printout}
  {t : Machine VgaContext} {string name line : Ptr} {text : List (BitVec 8)} {d : BootTags}

theorem printsAll_letters (s : Machine VgaContext) (text : List (BitVec 8)) : ∀ p : Printout,
    PrintsAll s p (letters text) ⟨p.lines, p.line ++ coloured vgaGreen text⟩ := by
  induction text with
  | nil =>
    intro p
    have hsame : (⟨p.lines, p.line ++ coloured vgaGreen []⟩ : Printout) = p :=
      congrArg (Printout.mk p.lines) (List.append_nil _)
    rw [hsame]
    exact .nil p
  | cons c text ih =>
    intro p
    have hrest := ih ⟨p.lines, p.line ++ [(c, cellColor vgaGreen vgaBlack)]⟩
    rw [List.append_assoc] at hrest
    exact .cons (.autoEntry vgaGreen c) hrest

theorem Prints.endLine (hs : Holds t string []) :
    Prints t p (.autoPrintln vgaWhite vgaBlack string) ⟨p.lines ++ [p.line], []⟩ := by
  have hline : p.line = p.line ++ coloured vgaWhite [] := (List.append_nil _).symm
  rw [hline]
  exact .autoPrintln vgaWhite hs fun c hc => absurd hc List.not_mem_nil

/-- The literals are there. -/
structure Literals (code : KernInitCode) (t : Machine VgaContext) : Prop where
  held : ∀ text ∈ bootLiterals, Holds t (code.literal text) (chars text)

theorem Literals.print (h : Literals code t) {text : String} (hmem : text ∈ bootLiterals)
    (hne : chars text ≠ []) (fg : VgaColorValue) :
    Prints t p (.autoPrint fg vgaBlack (code.literal text))
      ⟨p.lines, p.line ++ coloured fg (chars text)⟩ :=
  .autoPrint fg (h.held text hmem) (bootLiterals_plain text hmem) hne

theorem foundCalls_prints (h : Literals code t)
    (hbegin : Holds t code.bufBeginAddr (numeral 10 fb.framebufferWidth.toNat))
    (hend : Holds t code.bufEndAddr (numeral 10 fb.framebufferHeight.toNat))
    (hname : Holds t name d.bootloaderName) (hplain : ∀ c ∈ d.bootloaderName, Plain c)
    (hline : Holds t line d.commandLine) (hplain' : ∀ c ∈ d.commandLine, Plain c)
    (lines : List (List Cell)) :
    PrintsAll t ⟨lines, []⟩ (foundCalls code name line) ⟨lines ++ foundLines fb d, []⟩ := by
  have hcalls : PrintsAll t ⟨lines, []⟩ (foundCalls code name line) _ :=
    .cons (h.print (by decide) (by decide) _) <|
    .cons (.autoPrint _ hbegin (numeral_plain _) (numeral_ne_nil _)) <|
    .cons (h.print (by decide) (by decide) _) <|
    .cons (.autoPrintln _ hend (numeral_plain _)) <|
    .cons (h.print (by decide) (by decide) _) <|
    .cons (.autoPrintln _ hname hplain) <|
    .cons (h.print (by decide) (by decide) _) <|
    .cons (.autoPrintln _ hline hplain') (.nil _)
  simp only [List.append_assoc, List.nil_append, List.cons_append] at hcalls
  simpa only [foundLines, List.append_assoc] using hcalls

theorem processorCalls_prints (h : Literals code t) (lines : List (List Cell)) :
    PrintsAll t ⟨lines, []⟩ (vendorCalls code ++ (brandCalls code ++ familyCalls code))
      ⟨lines ++ processorLines code.cpuid, []⟩ := by
  have hempty : Holds t (code.literal "") [] := h.held "" (by decide)
  have hvendor : PrintsAll t ⟨lines, []⟩ (vendorCalls code) _ :=
    .cons (h.print (by decide) (by decide) _)
      ((printsAll_letters t _ _).append (.cons (.endLine hempty) (.nil _)))
  have hbrand : ∀ above : List (List Cell), PrintsAll t ⟨above, []⟩ (brandCalls code)
      ⟨above ++ [coloured vgaGreen (cpuBrand code.cpuid)], []⟩ := fun above =>
    (printsAll_letters t _ _).append (.cons (.endLine hempty) (.nil _))
  have hfamily : ∀ above : List (List Cell), PrintsAll t ⟨above, []⟩ (familyCalls code)
      ⟨above ++ if TakenForZen (cpuidFamilyNumber code.cpuid) then []
        else [coloured vgaRed (chars "Unsupported CPU")], []⟩ := by
    intro above
    rw [familyCalls]
    by_cases hzen : actualFamily (cpuidFamilyNumber code.cpuid) = cpuFamilyZen
    · rw [if_pos hzen, if_pos (actualFamily_zen_iff.mp hzen), List.append_nil]
      exact .nil _
    · rw [if_neg hzen, if_neg (mt actualFamily_zen_iff.mpr hzen)]
      exact .cons (.autoPrintln _ (h.held "Unsupported CPU" (by decide))
        (bootLiterals_plain _ (by decide))) (.nil _)
  have hall := hvendor.append ((hbrand _).append (hfamily _))
  simp only [List.append_assoc, List.nil_append, List.cons_append] at hall
  simpa only [processorLines, List.append_assoc, List.nil_append, List.cons_append] using hall

end Texts

/-! ## The first screen -/

/-- What the loader and the linker have put where. -/
structure BootScreen (code : KernInitCode) (fb : FramebufferInfo) (mbInfo : BitVec 32)
    (tags : List InfoTag) (s : Machine VgaContext) : Prop where
  block : InfoBlock s.mem code.kernelEnd mbInfo tags
  counts : ∀ tag ∈ tags, tag.Counts
  framebuffer : (described tags).framebuffer = some fb
  places : BootPlaces code fb
  literals : ∀ text ∈ bootLiterals, KeptText code fb s.mem (code.literal text) (chars text)
  image : ∀ text ∈ bootLiterals, ∀ k, k ≤ (chars text).length →
    phys (code.literal text + BitVec.ofNat 64 k) < code.kernelEnd.toNat
  blockKept : ∀ x, (firstTag mbInfo).toNat ≤ x →
    x < (firstTag mbInfo).toNat + tagsLength tags + 8 → Kept code fb x
  bootloaderName : ∀ c ∈ (described tags).bootloaderName, Plain c
  commandLine : ∀ c ∈ (described tags).commandLine, Plain c
  cursor : s.statics.cursorEnabled = false

section Screen

variable {code : KernInitCode} {fb : FramebufferInfo} {mbInfo : BitVec 32} {tags : List InfoTag}
  {s t u : Machine VgaContext} {m : Mem} {lo hi : Nat} {ptr : Option Ptr}
  {text literal : List (BitVec 8)} {name line : Ptr} {d : BootTags} {p : Printout}

theorem TextIn.kept {a : Ptr} (h : TextIn m lo hi literal ptr text) (hhi : hi ≤ 2 ^ 60)
    (hblock : ∀ x, lo ≤ x → x < hi → Kept code fb x) (hliteral : KeptText code fb m a literal) :
    KeptText code fb m (ptr.getD a) text := by
  cases ptr with
  | none =>
    have htext : text = literal := h
    rw [htext]
    exact hliteral
  | some b =>
    obtain ⟨hbytes, hlo, hlt⟩ := h
    refine ⟨hbytes, fun k hk => ?_⟩
    rw [Option.getD_some, phys_low (by omega) (by omega)]
    exact hblock _ (by omega) (by omega)

theorem rows_ended (w : Nat) (lines : List (List Cell)) :
    Printout.rows w ⟨lines, []⟩ = pageRows w lines + 1 := by
  rw [Printout.rows, lineRows, List.length_nil, Nat.zero_sub, Nat.zero_div]

/-- The screen is set up and blanked. -/
theorem startPage_spec (hplaces : BootPlaces code fb) (hcursor : t.statics.cursorEnabled = false) :
    Returns (do
      vgaPrepareEnvironment fb.framebuffer fb.framebufferBPP fb.framebufferWidth
        fb.framebufferHeight fb.framebufferTextOnly
      kiBlankVgaScreen fb.framebufferHeight fb.framebufferWidth vgaBlack) t fun _ u =>
        OnPage code fb t.mem ⟨[], []⟩ u := by
  obtain ⟨hready, hw, hh⟩ := prepared_ready hplaces.sound hplaces.window fb.framebufferBPP
    fb.framebufferTextOnly t
  have hlayout : (t.statics.prepared fb.framebuffer fb.framebufferBPP fb.framebufferWidth
      fb.framebufferHeight fb.framebufferTextOnly).layout = fb.layout := by
    have hwidth := hw
    have hheight := hh
    dsimp only at hwidth hheight
    rw [prepared_layout] at hwidth hheight
    dsimp only at hwidth hheight
    rw [prepared_layout, hwidth, hheight, hcursor, FramebufferInfo.layout]
  have hbuffer := prepared_buffer t.statics fb.framebuffer fb.framebufferBPP fb.framebufferWidth
    fb.framebufferHeight fb.framebufferTextOnly
  have hhighlight := prepared_highlight t.statics fb.framebuffer fb.framebufferBPP
    fb.framebufferWidth fb.framebufferHeight fb.framebufferTextOnly
  have hhidden : (t.statics.prepared fb.framebuffer fb.framebufferBPP fb.framebufferWidth
      fb.framebufferHeight fb.framebufferTextOnly).layout.cursorEnabled = false := by
    rw [hlayout, FramebufferInfo.layout]
  rw [vgaPrepareEnvironment, returns_bind, returns_modifyStatics]
  have hpage := kiBlankVgaScreen_page hready hhidden hh.symm hw.symm
  have hblank := (kiBlankVgaScreen_settings _ _ _ _).returns hpage
  refine (hpage.and hblank).mono fun _ u hu => ?_
  obtain ⟨⟨hdraws, hpage⟩, hsettings⟩ := hu
  obtain ⟨hlight, hback⟩ := VgaContext.colours_of_settings hsettings
  refine ⟨hdraws.layout.trans hlayout, hdraws.buffer.trans hbuffer, hlight.trans hhighlight, hback,
    hpage, fun x hx => ?_⟩
  refine hdraws.outside x ?_
  rw [VgaContext.screenBytes]
  dsimp only
  rw [hlayout, hbuffer]
  exact hx.screen

/-- The number buffers hold the numbers, and nothing else has changed. -/
theorem printFound_spec (hplaces : BootPlaces code fb) (h : OnPage code fb m ⟨[], []⟩ t)
    (hliterals : ∀ text ∈ bootLiterals, KeptText code fb m (code.literal text) (chars text))
    (hname : KeptText code fb m name d.bootloaderName)
    (hplain : ∀ c ∈ d.bootloaderName, Plain c)
    (hline : KeptText code fb m line d.commandLine) (hplain' : ∀ c ∈ d.commandLine, Plain c)
    (hfit : pageRows fb.framebufferWidth.toNat
      (coloured vgaWhite (chars "Starting initial kernel setup...") :: foundLines fb d) <
        fb.framebufferHeight.toNat) :
    Returns (printFound code fb name line) t fun _ u => OnPage code fb m
      ⟨coloured vgaWhite (chars "Starting initial kernel setup...") :: foundLines fb d, []⟩ u := by
  have hheld : ∀ {p : Printout} {u : Machine VgaContext}, OnPage code fb m p u →
      Literals code u := fun hu => ⟨fun text hmem => hu.holds (hliterals text hmem)⟩
  rw [printFound_eq]
  have hstart : PrintsAll t ⟨[], []⟩ [.autoPrintln vgaWhite vgaBlack
      (code.literal "Starting initial kernel setup...")] ⟨[coloured vgaWhite
        (chars "Starting initial kernel setup...")], []⟩ :=
    .cons (.autoPrintln _ ((hheld h).held _ (by decide)) (bootLiterals_plain _ (by decide)))
      (.nil _)
  have hfirst : Printout.rows fb.framebufferWidth.toNat
      ⟨[coloured vgaWhite (chars "Starting initial kernel setup...")], []⟩ ≤
        fb.framebufferHeight.toNat := by
    rw [rows_ended]
    refine Nat.le_trans (Nat.succ_le_succ ?_) hfit
    exact Nat.add_le_add_left (Nat.zero_le _) _
  refine (h.calls hplaces hstart hfirst).bind fun _ t1 h1 => ?_
  refine (h1.itoa fb.framebufferWidth hplaces.bufBeginAddr fun x hx => hx.bufBeginAddr).bind
    fun _ t2 h2 => ?_
  obtain ⟨h2, hwidth, -⟩ := h2
  refine (h2.itoa fb.framebufferHeight hplaces.bufEndAddr fun x hx => hx.bufEndAddr).bind
    fun _ t3 h3 => ?_
  obtain ⟨h3, hheight, houtside⟩ := h3
  have hdigits : ∀ v : BitVec 32, (numeral 10 v.toNat).length ≤ 10 := fun v =>
    length_numeral_le (by decide) (by decide) (Nat.lt_trans v.isLt (by decide))
  have hbuffer : ∀ {buf : Ptr} (v : BitVec 32), NumberBuffer fb buf →
      CString t3.mem buf (numeral 10 v.toNat) → Holds t3 buf (numeral 10 v.toNat) := by
    intro buf v hbuf hstring
    refine ⟨hstring, fun k hk => ?_⟩
    have hlen := hdigits v
    rw [VgaContext.screenBytes, h3.layout, h3.buffer, phys_add hbuf.spans (by omega)]
    exact hbuf.offScreen k (by omega)
  have hwidth3 : CString t3.mem code.bufBeginAddr (numeral 10 fb.framebufferWidth.toNat) := by
    refine hwidth.congr fun k hk => houtside _ ?_
    have hlen := hdigits fb.framebufferWidth
    rw [phys_add hplaces.bufBeginAddr.spans (by omega)]
    exact hplaces.apart k (by omega)
  refine h3.calls hplaces (foundCalls_prints (hheld h3) (hbuffer _ hplaces.bufBeginAddr hwidth3)
    (hbuffer _ hplaces.bufEndAddr hheight) (h3.holds hname) hplain (h3.holds hline) hplain' _) ?_
  rw [rows_ended]
  exact hfit

theorem printProcessor_spec {lines : List (List Cell)} (hplaces : BootPlaces code fb)
    (h : OnPage code fb m ⟨lines, []⟩ t)
    (hliterals : ∀ text ∈ bootLiterals, KeptText code fb m (code.literal text) (chars text))
    (hfit : pageRows fb.framebufferWidth.toNat (lines ++ processorLines code.cpuid) <
      fb.framebufferHeight.toNat) :
    Returns (printProcessor code) t fun _ u =>
      OnPage code fb m ⟨lines ++ processorLines code.cpuid, []⟩ u := by
  rw [printProcessor_eq]
  refine h.calls hplaces (processorCalls_prints ⟨fun text hmem => h.holds (hliterals text hmem)⟩
    lines) ?_
  rw [rows_ended]
  exact hfit

/-- The cursor is drawn in the first cell of row 24. -/
theorem OnPage.cursor (h : OnPage code fb m p t) (hplaces : BootPlaces code fb)
    (hheight : 24 < fb.framebufferHeight.toNat) :
    Returns (do vgaSetCursorEnabled true; vgaTraceCharacters true; vgaMoveCursor 0 24) t
      fun _ u => ∀ i, i < fb.framebufferWidth.toNat * fb.framebufferHeight.toNat →
        (shown u).cell i = if i = 24 * fb.framebufferWidth.toNat then
          (0, cellColor vgaLightBrown vgaBlack)
        else (p.cells fb.framebufferWidth.toNat).getD i Cell.blank := by
  have hready := h.ready hplaces
  have hlayout := h.layout
  have hcells := h.page.cells
  simp only [vgaSetCursorEnabled, vgaTraceCharacters, returns_bind, returns_modifyStatics]
  generalize hv : ({ t with statics := { t.statics with
    cursorEnabled := true, followingInput := true } } : Machine VgaContext) = v
  have hwidth : v.statics.layout.width = fb.framebufferWidth.toNat := by
    rw [← hv]
    exact congrArg Layout.width hlayout
  have hrows : v.statics.layout.height = fb.framebufferHeight.toNat := by
    rw [← hv]
    exact congrArg Layout.height hlayout
  have hrv : Ready v := by
    rw [← hv]
    exact ⟨⟨hready.sound.even, hready.sound.width, hready.sound.height, hready.sound.small⟩,
      hready.spans, hready.nonnull⟩
  have hwpos : 0 < fb.framebufferWidth.toNat := by
    have hwide : 2 ≤ fb.framebufferWidth.toNat := hplaces.sound.width
    omega
  have hcell : 24 * fb.framebufferWidth.toNat <
      fb.framebufferWidth.toNat * fb.framebufferHeight.toNat := by
    rw [Nat.mul_comm]
    exact Nat.mul_lt_mul_of_pos_left hheight hwpos
  have hmove := vgaMoveCursor_draws (x := 0) (y := 24) (Draws.refl v) hrv fun _ => by
    refine ⟨?_, ?_⟩
    · show 24 < v.statics.layout.height
      rw [hrows]
      exact hheight
    · show 0 + 24 * v.statics.layout.width < v.statics.layout.width * v.statics.layout.height
      rw [hwidth, hrows, Nat.zero_add]
      exact hcell
  refine hmove.mono fun _ u hu i hi => ?_
  have hon : (shown v).layout.cursorEnabled = true := by
    rw [← hv]
    rfl
  rw [hu.shows, Screen.moveCursor, if_pos hon]
  refine (Screen.cell_entry _ _ _ _ _ _ _).trans ?_
  show (if i = 0 + 24 * v.statics.layout.width then _ else _) = _
  rw [hwidth, Nat.zero_add]
  have hsame : (shown v).cell i = (shown t).cell i := by
    rw [← hv]
    rfl
  by_cases hi24 : i = 24 * fb.framebufferWidth.toNat
  · rw [if_pos hi24, if_pos hi24, ← h.highlight, ← h.background, ← hv]
    rfl
  · rw [if_neg hi24, if_neg hi24, hsame, hcells i ?_]
    · show (pageCells t.statics.layout.width p.lines ++ p.line).getD i Cell.blank = _
      rw [hlayout]
      rfl
    · show i < t.statics.layout.width * t.statics.layout.height
      rw [hlayout]
      exact hi

/-- On any screen that they fit on, the texts stand line after line when `KiSystemStartup` is
called, and the cursor at the start of row 24. -/
theorem kernInit_shows (h : BootScreen code fb mbInfo tags s)
    (hheight : 24 < fb.framebufferHeight.toNat)
    (hfit : pageRows fb.framebufferWidth.toNat (bootLines code.cpuid fb (described tags)) <
      fb.framebufferHeight.toNat) :
    Returns (kernInit code mbInfo) s fun _ t =>
      ∀ i, i < fb.framebufferWidth.toNat * fb.framebufferHeight.toNat →
        (shown t).cell i = if i = 24 * fb.framebufferWidth.toNat then
          (0, cellColor vgaLightBrown vgaBlack)
        else (pageCells fb.framebufferWidth.toNat
          (bootLines code.cpuid fb (described tags))).getD i Cell.blank := by
  have hlow := h.block.low
  obtain ⟨heads, init, t, -, -, hrun, hstate, hbelow⟩ := h.block.passes h.counts
  have hstatics : t.statics = s.statics := readTags_statics _ _ s _ _ hrun
  have hliterals : ∀ text ∈ bootLiterals,
      KeptText code fb t.mem (code.literal text) (chars text) := by
    intro text hmem
    have hkept := h.literals text hmem
    exact ⟨hkept.bytes.congr fun k hk => hbelow _ (h.image text hmem k hk), hkept.kept⟩
  have hname := hstate.bootloaderName.kept (a := code.literal "Unknown") (by omega) h.blockKept
    (hliterals "Unknown" (by decide))
  have hline := hstate.commandLine.kept (a := code.literal "") (by omega) h.blockKept
    (hliterals "" (by decide))
  have hfb : init.framebuffer.getD code.uninitialized = fb := by
    rw [hstate.framebuffer, h.framebuffer, Option.getD_some]
  rw [kernInit, returns_bind]
  refine returns_of_eq hrun ?_
  dsimp only
  rw [hfb, ← bind_assoc]
  refine (startPage_spec h.places (by rw [hstatics]; exact h.cursor)).bind fun _ t2 h2 => ?_
  have hfound : pageRows fb.framebufferWidth.toNat
      (coloured vgaWhite (chars "Starting initial kernel setup...") ::
        foundLines fb (described tags)) < fb.framebufferHeight.toNat := by
    rw [bootLines, ← List.cons_append, pageRows_append] at hfit
    omega
  refine (printFound_spec h.places h2 hliterals hname h.bootloaderName hline h.commandLine
    hfound).bind fun _ t3 h3 => ?_
  refine (printProcessor_spec h.places h3 hliterals hfit).bind fun _ t4 h4 => ?_
  have htail : (do
      vgaSetCursorEnabled true
      vgaTraceCharacters true
      vgaMoveCursor 0 24
      pure init) = ((do
        vgaSetCursorEnabled true
        vgaTraceCharacters true
        vgaMoveCursor 0 24) >>= fun _ => pure init : Kern VgaContext KernInit) := by
    simp only [bind_assoc]
  rw [htail]
  refine (h4.cursor h.places hheight).bind fun _ t5 h5 => ?_
  rw [returns_pure]
  intro i hi
  rw [h5 i hi, Printout.cells, List.append_nil]
  rfl

end Screen

/-! ## The text screen of a personal computer -/

/-- 80 columns and 25 rows at `0xB8000`. -/
def textScreenTag : InfoTag where
  type := 8
  body := [0x00, 0x80, 0x0B, 0, 0, 0, 0, 0, 160, 0, 0, 0, 80, 0, 0, 0, 25, 0, 0, 0, 16, 2, 0, 0]
  notEnd := by decide
  fits := by decide

def textScreenInfo : FramebufferInfo where
  framebuffer := 0xB8000
  framebufferBPP := 16
  framebufferHeight := 25
  framebufferWidth := 80
  framebufferTextOnly := false

/-- The literals are at 1 MiB, 64 bytes each. -/
def textScreenCode : KernInitCode where
  literal text := BitVec.ofNat 64 (0x100000 + 64 * bootLiterals.idxOf text)
  bufBeginAddr := 0x24000
  bufEndAddr := 0x25000
  uninitialized := textScreenInfo
  kernelEnd := 0x180000
  cpuid _ := ⟨0x41414141, 0x42424242, 0x43434343, 0x44444444⟩

def textScreenMem : Mem := fun x =>
  if 0x100000 ≤ x then
    (chars (bootLiterals.getD ((x - 0x100000) / 64) "")).getD ((x - 0x100000) % 64) 0
  else block (fun _ => 0) 0x50008 (encodeTags [textScreenTag]) x

def textScreenMachine : Machine VgaContext where
  mem := textScreenMem
  log := []
  statics := ⟨0, 0, 0, 0, 0, 0, 0, 0, 0, 0, false, false, false⟩

theorem bootLiterals_short : ∀ text ∈ bootLiterals, (chars text).length < 64 := by
  intro text htext
  simp only [bootLiterals, List.mem_cons, List.not_mem_nil, or_false] at htext
  rcases htext with rfl | rfl | rfl | rfl | rfl | rfl | rfl | rfl | rfl <;> simp [chars]

theorem textScreen_literal {text : String} (htext : text ∈ bootLiterals) :
    CString textScreenMem (textScreenCode.literal text) (chars text) := by
  have hlength : bootLiterals.length = 9 := rfl
  refine cString_slot 0x100000 64 (by decide) (by rw [hlength]; decide) (fun i k hi hk => ?_) htext
    (bootLiterals_short text htext) fun c hc => (bootLiterals_plain text htext c hc).2.2
  rw [textScreenMem, if_pos (by omega), show (0x100000 + (64 * i + k) - 0x100000) / 64 = i by omega,
    show (0x100000 + (64 * i + k) - 0x100000) % 64 = k by omega]

theorem textScreen_phys {text : String} (htext : text ∈ bootLiterals) {k : Nat}
    (hk : k ≤ (chars text).length) :
    0x100000 ≤ phys (textScreenCode.literal text + BitVec.ofNat 64 k) ∧
      phys (textScreenCode.literal text + BitVec.ofNat 64 k) < 0x180000 := by
  have hindex := List.idxOf_lt_length_of_mem htext
  have hlength : bootLiterals.length = 9 := rfl
  have hshort := bootLiterals_short text htext
  have hnat : (textScreenCode.literal text).toNat = 0x100000 + 64 * bootLiterals.idxOf text := by
    rw [textScreenCode, BitVec.toNat_ofNat]
    exact Nat.mod_eq_of_lt (by omega)
  rw [phys_low (by omega) (by omega), hnat]
  omega

theorem textScreen_kept {x : Nat} (h : 0x50000 ≤ x ∧ x < 0x51000 ∨ 0x100000 ≤ x) :
    Kept textScreenCode textScreenInfo x := by
  have hscreen : phys textScreenInfo.screen = 0xB8000 := by decide
  have hbytes : textScreenInfo.bytes = 4000 := by decide
  have hbegin : phys textScreenCode.bufBeginAddr = 0x24000 := by decide
  have hend : phys textScreenCode.bufEndAddr = 0x25000 := by decide
  refine ⟨?_, ?_, ?_⟩
  · rw [hscreen, hbytes, Outside]
    omega
  · rw [hbegin, Outside]
    omega
  · rw [hend, Outside]
    omega

theorem textScreen_block : InfoBlock textScreenMem 0x180000 0x50000 [textScreenTag] := by
  have hfirst : (firstTag 0x50000).toNat = 0x50008 := rfl
  have hlength : tagsLength [textScreenTag] = 32 := by decide
  have hself : textScreenTag.SelfContained :=
    ⟨by decide, fun hmap => absurd hmap (by decide), fun _ hmap => absurd hmap (by decide),
      by decide⟩
  refine ⟨?_, ?_, by decide, ?_, ?_⟩
  · refine (tagsAt_encodeTags (fun _ => 0) 0x50008 [textScreenTag]).congr fun x _ hx => ?_
    rw [hlength] at hx
    rw [textScreenMem, if_neg (by omega)]
  · rw [hfirst, hlength]
    decide
  · intro tag htag
    rw [List.mem_singleton.mp htag]
    exact hself
  · intro tag htag
    rw [List.mem_singleton.mp htag]
    exact fun hmap => absurd hmap (by decide)

theorem textScreen_buffer {buf : Ptr} (h : buf = 0x24000 ∨ buf = 0x25000) :
    NumberBuffer textScreenInfo buf := by
  have hscreen : phys textScreenInfo.screen = 0xB8000 := by decide
  rcases h with rfl | rfl
  · refine ⟨by unfold Spans; decide, by decide, fun k hk => Or.inl ?_⟩
    rw [hscreen, show phys 0x24000 = 0x24000 by decide]
    omega
  · refine ⟨by unfold Spans; decide, by decide, fun k hk => Or.inl ?_⟩
    rw [hscreen, show phys 0x25000 = 0x25000 by decide]
    omega

theorem textScreen_holds : BootScreen textScreenCode textScreenInfo 0x50000 [textScreenTag]
    textScreenMachine := by
  have hplaces : BootPlaces textScreenCode textScreenInfo := by
    refine ⟨⟨by decide, by decide, by decide, by decide⟩, by unfold InWindow; decide,
      textScreen_buffer (Or.inl rfl), textScreen_buffer (Or.inr rfl), fun k hk => Or.inl ?_⟩
    rw [show phys textScreenCode.bufBeginAddr = 0x24000 by decide,
      show phys textScreenCode.bufEndAddr = 0x25000 by decide]
    omega
  have hcounts : ∀ tag ∈ [textScreenTag], tag.Counts := by
    intro tag htag hmap
    rw [List.mem_singleton.mp htag] at hmap
    exact absurd hmap (by decide)
  refine ⟨textScreen_block, hcounts, by decide, hplaces, fun text htext => ?_, fun text htext k hk => ?_,
    fun x hlo hhi => ?_, ?_, ?_, rfl⟩
  · exact ⟨textScreen_literal htext, fun k hk =>
      textScreen_kept (Or.inr (textScreen_phys htext hk).1)⟩
  · exact (textScreen_phys htext hk).2
  · have hfirst : (firstTag 0x50000).toNat = 0x50008 := rfl
    have hlength : tagsLength [textScreenTag] = 32 := by decide
    rw [hfirst] at hlo hhi
    rw [hlength] at hhi
    exact textScreen_kept (Or.inl (by omega))
  · exact bootLiterals_plain "Unknown" (by decide)
  · exact fun c hc => absurd hc List.not_mem_nil

theorem kernInit_shows_textScreen : Returns (kernInit textScreenCode 0x50000) textScreenMachine
    fun _ t => ∀ i, i < 80 * 25 →
      (shown t).cell i = if i = 24 * 80 then (0, cellColor vgaLightBrown vgaBlack)
        else (pageCells 80 (bootLines textScreenCode.cpuid textScreenInfo
          (described [textScreenTag]))).getD i Cell.blank :=
  kernInit_shows textScreen_holds (by decide) (by decide)

end FeralKernel
