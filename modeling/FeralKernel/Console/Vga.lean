import FeralKernel.Lib.StringFuncs

/-!
# The VGA text console

The drawing routines of `kern/arch/x86_64/vga/vga_driver.c` and
`InternalVgaBackspace` of `kern/entry/mb2entry.c`.  A cell of the screen is two
bytes, the character and its colour.  The commands sent to the I/O ports touch no
memory, so they are left out.

`VgaEntry` scrolls when it is given a row below the screen, and scrolling moves
the cursor, which draws a cell with `VgaEntry` again.  Every inner call is for the
bottom row, so the calls either end at once or never.
-/

namespace FeralKernel

open Verif.Program Verif.Bytes

/-- A value of the enumeration, which `KiBlankVgaScreen` sets from any number. -/
abbrev VgaColorValue : Type := BitVec 32

def vgaBlack : VgaColorValue := 0
def vgaGreen : VgaColorValue := 2
def vgaRed : VgaColorValue := 4
def vgaLightGrey : VgaColorValue := 7
def vgaLightBrown : VgaColorValue := 14
def vgaWhite : VgaColorValue := 15

structure VgaContext where
  framebuffer : Ptr
  swappedBuffer : Ptr
  screenWidth : BitVec 16
  screenHeight : BitVec 16
  bpp : BitVec 16
  background : VgaColorValue
  foreground : VgaColorValue
  highlight : VgaColorValue
  currentRow : BitVec 16
  currentCol : BitVec 16
  textMode : Bool
  followingInput : Bool
  cursorEnabled : Bool
deriving DecidableEq

/-! ## Cells, the cursor and scrolling -/

def internalVgaPushUpWith (moveCursor : BitVec 32 → BitVec 32 → Kern VgaContext Unit) :
    Kern VgaContext Unit := do
  let ctx ← getStatics
  let rowSize : BitVec 16 := (2 * ctx.screenWidth.setWidth 32 : BitVec 32).setWidth 16
  let src := ctx.swappedBuffer + rowSize.setWidth 64
  let dst := ctx.swappedBuffer + 0
  let lastRow := ctx.swappedBuffer +
    ((ctx.screenHeight.setWidth 32 - 1) * rowSize.setWidth 32 : BitVec 32).signExtend 64
  let amt : BitVec 64 :=
    (2 * ctx.screenWidth.setWidth 32 * (ctx.screenHeight.setWidth 32 - 1) : BitVec 32).signExtend 64
  let _ ← kiCopyMemory dst src amt
  let _ ← kiSetMemoryBytes lastRow 0 (rowSize.setWidth 64)
  moveCursor 0 (ctx.screenHeight.setWidth 32 - 1)

def vgaMoveCursorWith
    (entry : VgaColorValue → VgaColorValue → BitVec 8 → BitVec 32 → BitVec 32 → Kern VgaContext Unit)
    (posX posY : BitVec 32) : Kern VgaContext Unit := do
  let ctx ← getStatics
  onlyIf (ctx.cursorEnabled = true) (entry ctx.highlight ctx.background 0 posX posY)

def vgaEntryWith (pushUp : Kern VgaContext Unit) (foreground background : VgaColorValue)
    (letter : BitVec 8) (posX posY : BitVec 32) : Kern VgaContext Unit := do
  let before ← getStatics
  onlyIf (before.screenHeight.setWidth 32 ≤ posY) pushUp
  let ctx ← getStatics
  let color : BitVec 16 := (foreground <<< 0 ||| background <<< 4).setWidth 16
  let offset : BitVec 16 := (2 * (posX + posY * ctx.screenWidth.setWidth 32)).setWidth 16
  store8 (ctx.swappedBuffer + (offset.setWidth 64 + 0)) letter
  store8 (ctx.swappedBuffer + (offset.setWidth 64 + 1)) (color.setWidth 8)
  modifyStatics fun ctx => { ctx with currentCol := posX.setWidth 16 }

/-- `VgaEntry` with at most `depth` calls of it under way. -/
def vgaEntryWithin : Nat → VgaColorValue → VgaColorValue → BitVec 8 → BitVec 32 → BitVec 32 →
    Kern VgaContext Unit
  | 0, _, _, _, _, _ => stop .hang
  | depth + 1, foreground, background, letter, posX, posY =>
    vgaEntryWith (internalVgaPushUpWith (vgaMoveCursorWith (vgaEntryWithin depth)))
      foreground background letter posX posY

def vgaEntry (foreground background : VgaColorValue) (letter : BitVec 8) (posX posY : BitVec 32) :
    Kern VgaContext Unit :=
  vgaEntryWithin loopBound foreground background letter posX posY

def vgaMoveCursor (posX posY : BitVec 32) : Kern VgaContext Unit :=
  vgaMoveCursorWith vgaEntry posX posY

def internalVgaPushUp : Kern VgaContext Unit := internalVgaPushUpWith vgaMoveCursor

/-! ## Setting up -/

def VgaContext.prepared (ctx : VgaContext) (framebuffer : Ptr) (framebufferBPP : BitVec 16)
    (framebufferWidth framebufferHeight : BitVec 32) (framebufferTextOnly : Bool) : VgaContext :=
  { ctx with
    bpp := framebufferBPP
    framebuffer := kernPhysToVirt framebuffer
    screenWidth := framebufferWidth.setWidth 16
    screenHeight := framebufferHeight.setWidth 16
    background := vgaBlack
    foreground := vgaWhite
    highlight := vgaLightBrown
    textMode := framebufferTextOnly
    followingInput := false
    currentRow := 0
    currentCol := 0
    swappedBuffer := kernPhysToVirt framebuffer }

def vgaPrepareEnvironment (framebuffer : Ptr) (framebufferBPP : BitVec 16)
    (framebufferWidth framebufferHeight : BitVec 32) (framebufferTextOnly : Bool) :
    Kern VgaContext Unit :=
  modifyStatics fun ctx => ctx.prepared framebuffer framebufferBPP framebufferWidth
    framebufferHeight framebufferTextOnly

def vgaSetCursorEnabled (value : Bool) : Kern VgaContext Unit :=
  modifyStatics fun ctx => { ctx with cursorEnabled := value }

def vgaTraceCharacters (value : Bool) : Kern VgaContext Unit :=
  modifyStatics fun ctx => { ctx with followingInput := value }

def vgaSetCurrentPosition (x y : BitVec 16) : Kern VgaContext Unit :=
  modifyStatics fun ctx => { ctx with currentRow := y, currentCol := x }

/-- One row of `KiBlankVgaScreen`. -/
def blankRow (width color : BitVec 32) (h : BitVec 16) : Kern VgaContext Unit :=
  iterate .hang (fun w : BitVec 16 =>
    if w.setWidth 32 < width then do
      vgaEntry color color 0 (w.setWidth 32) (h.setWidth 32)
      pure (.inr (w + 1))
    else pure (.inl ())) loopBound 0

def kiBlankVgaScreen (height width color : BitVec 32) : Kern VgaContext Unit := do
  modifyStatics fun ctx => { ctx with background := color }
  iterate .hang (fun h : BitVec 16 =>
    if h.setWidth 32 < height then do
      blankRow width color h
      pure (.inr (h + 1))
    else pure (.inl ())) loopBound 0
  vgaSetCurrentPosition 0 0

/-! ## Characters -/

/-- The check for the right margin, the same in `VgaAutoEntry` and `VgaPutChar`. -/
def wrapColumn : Kern VgaContext Unit :=
  modifyStatics fun ctx =>
    if ctx.screenWidth ≤ ctx.currentCol then
      { ctx with currentCol := 0, currentRow := ctx.currentRow + 1 }
    else ctx

/-- The check for the bottom of the screen, the same in `VgaAutoEntry`,
`VgaPutChar` and `VgaPrintln`. -/
def scrollRow : Kern VgaContext Unit := do
  let ctx ← getStatics
  onlyIf (ctx.screenHeight ≤ ctx.currentRow) do
    setStatics { ctx with currentRow := ctx.screenHeight - 1 }
    internalVgaPushUp

/-- `VgaMoveCursor` to the position of the context. -/
def moveCursorHere : Kern VgaContext Unit := do
  let ctx ← getStatics
  vgaMoveCursor (ctx.currentCol.setWidth 32) (ctx.currentRow.setWidth 32)

def vgaAutoEntry (foreground background : VgaColorValue) (letter : BitVec 8) :
    Kern VgaContext Unit := do
  wrapColumn
  scrollRow
  let ctx ← getStatics
  vgaEntry foreground background letter (ctx.currentCol.setWidth 32) (ctx.currentRow.setWidth 32)
  modifyStatics fun ctx => { ctx with currentCol := ctx.currentCol + 1 }

def vgaPutChar (letter : BitVec 8) : Kern VgaContext Unit := do
  let ctx ← getStatics
  vgaAutoEntry ctx.foreground ctx.background letter
  let ctx ← getStatics
  onlyIf (ctx.followingInput = true) do
    wrapColumn
    scrollRow
    moveCursorHere

def internalVgaBackspace : Kern VgaContext Unit := do
  let ctx ← getStatics
  if ctx.currentCol = 0 then pure ()
  else
    let x : BitVec 16 := ctx.currentCol - 1
    let y : BitVec 16 := ctx.currentRow
    vgaMoveCursor (x.setWidth 32) (y.setWidth 32)
    vgaPutChar (ch ' ')
    vgaMoveCursor (x.setWidth 32) (y.setWidth 32)

/-! ## Strings -/

/-- The wrap of `VgaStringEntry`, on its own copy of the position. -/
def stringWrap (posx posy : BitVec 32) : Kern VgaContext (BitVec 32 × BitVec 32) := do
  let ctx ← getStatics
  if ctx.screenWidth.setWidth 32 ≤ posx then
    setStatics { ctx with currentRow := (posy + 1).setWidth 16 }
    pure (0, posy + 1)
  else pure (posx, posy)

def stringScroll (posy : BitVec 32) : Kern VgaContext (BitVec 32) := do
  let ctx ← getStatics
  if ctx.screenHeight.setWidth 32 ≤ posy then
    internalVgaPushUp
    pure (ctx.screenHeight.setWidth 32 - 1)
  else pure posy

/-- The new column, or nothing at the end of the string. -/
def stringChar (foreground background : VgaColorValue) (c : BitVec 8) (posx posy : BitVec 32) :
    Kern VgaContext (Option (BitVec 32)) :=
  if c = ch '\t' then do
    forRange (fun _ _ => vgaPutChar (ch ' ')) 8 0 ()
    pure (some posx)
  else if c = ch '\n' then do
    modifyStatics fun ctx => { ctx with currentCol := 0, currentRow := ctx.currentRow + 1 }
    pure (some posx)
  else if c = 0 then pure none
  else do
    vgaEntry foreground background c posx posy
    pure (some (posx + 1))

/-- The locals of the loop of `VgaStringEntry`. -/
structure StringLoop where
  index : BitVec 64
  c : BitVec 8
  posx : BitVec 32
  posy : BitVec 32

def vgaStringEntry (foreground background : VgaColorValue) (string : Ptr)
    (length posx posy : BitVec 32) : Kern VgaContext Unit := do
  let c ← load8 (string + 0)
  iterate .hang (fun l : StringLoop =>
    if l.index < length.setWidth 64 then do
      let (posx, posy) ← stringWrap l.posx l.posy
      let posy ← stringScroll posy
      match ← stringChar foreground background l.c posx posy with
      | none => pure (.inl ())
      | some posx =>
        let c ← load8 (string + (l.index + 1))
        pure (.inr ⟨l.index + 1, c, posx, posy⟩)
    else pure (.inl ())) loopBound ⟨0, c, posx, posy⟩

def vgaPrintln (foreground background : VgaColorValue) (string : Ptr) (length : BitVec 32) :
    Kern VgaContext Unit := do
  let ctx ← getStatics
  vgaStringEntry foreground background string length (ctx.currentCol.setWidth 32)
    (ctx.currentRow.setWidth 32)
  modifyStatics fun ctx => { ctx with currentRow := ctx.currentRow + 1, currentCol := 0 }
  scrollRow
  moveCursorHere

/-- `UINT64 Length = 0` and the call of `KiGetStringLength`. -/
def stringLength (string : Ptr) : Kern VgaContext (BitVec 64) := do
  let r ← kiGetStringLength string
  pure (r.2.getD 0)

def vgaAutoPrintln (foreground background : VgaColorValue) (string : Ptr) :
    Kern VgaContext Unit := do
  let length ← stringLength string
  vgaPrintln foreground background string (length.setWidth 32)

def vgaAutoPrint (foreground background : VgaColorValue) (string : Ptr) :
    Kern VgaContext Unit := do
  let length ← stringLength string
  let ctx ← getStatics
  vgaStringEntry foreground background string (length.setWidth 32) (ctx.currentCol.setWidth 32)
    (ctx.currentRow.setWidth 32)
  modifyStatics fun ctx => { ctx with currentCol := ctx.currentCol + 1 }
  moveCursorHere

end FeralKernel
