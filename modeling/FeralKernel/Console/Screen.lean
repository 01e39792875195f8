import FeralKernel.Lib.StringFuncs

/-!
# The screen as a value

What the console routines do, without the machine.  A `Layout` is what does not
change while the console runs, a `Spot` is the position of the context, and a
`Screen` adds the bytes of the screen and the colours.  The position never depends
on the bytes, so the position after a routine is computed on its own first.

Both positions of the context are 16 bits wide, which only a row count can run
over.
-/

namespace FeralKernel

open Verif.Bytes

structure Layout where
  width : Nat
  height : Nat
  cursorEnabled : Bool
  followingInput : Bool
deriving DecidableEq

structure Spot where
  row : Nat
  col : Nat
deriving DecidableEq

/-- The position that `VgaStringEntry` keeps to itself. -/
structure Pen where
  x : Nat
  y : Nat
deriving DecidableEq

/-- The characters that a call with this length looks at.  The terminator is the
last of them. -/
def printed (text : List (BitVec 8)) (length : Nat) : List (BitVec 8) := (text ++ [0]).take length

/-! ## Positions -/

def Spot.nextRow (p : Spot) : Spot := ⟨(p.row + 1) % 65536, 0⟩

namespace Layout

def pushUp (l : Layout) (p : Spot) : Spot := if l.cursorEnabled then { p with col := 0 } else p

def wrap (l : Layout) (p : Spot) : Spot := if l.width ≤ p.col then p.nextRow else p

def settle (l : Layout) (p : Spot) : Spot :=
  if l.height ≤ p.row then l.pushUp { p with row := l.height - 1 } else p

def autoEntry (l : Layout) (p : Spot) : Spot :=
  let q := l.settle (l.wrap p)
  { q with col := q.col + 1 }

def putChar (l : Layout) (p : Spot) : Spot :=
  let q := l.autoEntry p
  if l.followingInput then l.settle (l.wrap q) else q

def spaces (l : Layout) : Nat → Spot → Spot
  | 0, p => p
  | n + 1, p => l.spaces n (l.putChar p)

def stringWrap (l : Layout) (st : Pen × Spot) : Pen × Spot :=
  if l.width ≤ st.1.x then (⟨0, st.1.y + 1⟩, { st.2 with row := (st.1.y + 1) % 65536 }) else st

def stringScroll (l : Layout) (st : Pen × Spot) : Pen × Spot :=
  if l.height ≤ st.1.y then (⟨st.1.x, l.height - 1⟩, l.pushUp st.2) else st

def stringLetter (l : Layout) (c : BitVec 8) (st : Pen × Spot) : Pen × Spot :=
  if c = ch '\t' then (st.1, l.spaces 8 st.2)
  else if c = ch '\n' then (st.1, st.2.nextRow)
  else if c = 0 then st
  else (⟨st.1.x + 1, st.1.y⟩, { st.2 with col := st.1.x })

def stringChar (l : Layout) (st : Pen × Spot) (c : BitVec 8) : Pen × Spot :=
  l.stringLetter c (l.stringScroll (l.stringWrap st))

/-- Where a string leaves the position of the context. -/
def stringEntry (l : Layout) (p : Spot) (text : List (BitVec 8)) : Spot :=
  (text.foldl l.stringChar (⟨p.col, p.row⟩, p)).2

end Layout

/-! ## Bounds on positions -/

/-- A screen that the routines can draw on: an offset fits in 16 bits, and a row is
copied in rounds of four bytes. -/
structure Layout.Sound (l : Layout) : Prop where
  even : l.width % 2 = 0
  width : 2 ≤ l.width
  height : 1 ≤ l.height
  small : 2 * l.width * l.height < 65536

/-- The position between two calls. -/
structure OnScreen (l : Layout) (p : Spot) : Prop where
  row : p.row < l.height
  col : p.col ≤ l.width

namespace Layout

variable {l : Layout} {p : Spot} {st : Pen × Spot}

theorem Sound.cell_lt {x y : Nat} (hx : x < l.width) (hy : y < l.height) :
    x + y * l.width < l.width * l.height := by
  have hrow : (y + 1) * l.width ≤ l.height * l.width := Nat.mul_le_mul_right _ hy
  rw [Nat.add_mul, Nat.one_mul, Nat.mul_comm l.height] at hrow
  omega

theorem Sound.cells_small (h : l.Sound) : 2 * (l.width * l.height) < 65536 := by
  have hsmall := h.small
  rw [Nat.mul_assoc] at hsmall
  exact hsmall

theorem Sound.width_le (h : l.Sound) : l.width ≤ l.width * l.height :=
  Nat.le_mul_of_pos_right _ h.height

theorem Sound.height_le (h : l.Sound) : l.height ≤ l.width * l.height :=
  Nat.le_mul_of_pos_left _ (by have := h.width; omega)

/-- The bottom row starts where the other rows end. -/
theorem Sound.rows (h : l.Sound) :
    2 * l.width * (l.height - 1) + 2 * l.width = 2 * (l.width * l.height) := by
  have hheight : l.height = l.height - 1 + 1 := by
    have := h.height
    omega
  rw [hheight, Nat.add_sub_cancel, Nat.mul_add, Nat.mul_one, Nat.mul_add, Nat.mul_assoc]

theorem pushUp_row : (l.pushUp p).row = p.row := by
  unfold pushUp
  split <;> rfl

theorem pushUp_col_le : (l.pushUp p).col ≤ p.col := by
  unfold pushUp
  split
  · exact Nat.zero_le _
  · exact Nat.le_refl _

theorem wrap_col_lt (h : l.Sound) : (l.wrap p).col < l.width := by
  have hw := h.width
  unfold wrap
  split
  · show 0 < l.width
    omega
  · omega

theorem settle_row_lt (h : l.Sound) : (l.settle p).row < l.height := by
  have hh := h.height
  unfold settle
  split
  · rw [pushUp_row]
    show l.height - 1 < l.height
    omega
  · omega

theorem settle_col_le : (l.settle p).col ≤ p.col := by
  unfold settle
  split
  · exact pushUp_col_le
  · exact Nat.le_refl _

theorem settle_wrap_col_lt (h : l.Sound) : (l.settle (l.wrap p)).col < l.width :=
  Nat.lt_of_le_of_lt settle_col_le (wrap_col_lt h)

theorem autoEntry_onScreen (h : l.Sound) : OnScreen l (l.autoEntry p) :=
  ⟨settle_row_lt h, settle_wrap_col_lt h⟩

theorem putChar_onScreen (h : l.Sound) : OnScreen l (l.putChar p) := by
  unfold putChar
  dsimp only
  split
  · exact ⟨settle_row_lt h, Nat.le_of_lt (settle_wrap_col_lt h)⟩
  · exact autoEntry_onScreen h

theorem spaces_col_le (h : l.Sound) (n : Nat) :
    ∀ {p : Spot}, p.col ≤ l.width → (l.spaces n p).col ≤ l.width := by
  induction n with
  | zero =>
    intro p hp
    exact hp
  | succ n ih =>
    intro p _
    exact ih (putChar_onScreen h).col

/-- What holds before each character of a string. -/
structure StringAt (l : Layout) (st : Pen × Spot) : Prop where
  x : st.1.x ≤ l.width
  y : st.1.y < 65536
  col : st.2.col ≤ l.width

/-- The pen is at a cell. -/
structure AtCell (l : Layout) (st : Pen × Spot) : Prop where
  x : st.1.x < l.width
  y : st.1.y < l.height
  col : st.2.col ≤ l.width

theorem stringScroll_atCell (h : l.Sound) (hst : StringAt l st) :
    AtCell l (l.stringScroll (l.stringWrap st)) := by
  have hw := h.width
  have hh := h.height
  have hwrap : (l.stringWrap st).1.x < l.width ∧ (l.stringWrap st).2.col ≤ l.width := by
    unfold stringWrap
    split
    · exact ⟨by show 0 < l.width; omega, hst.col⟩
    · exact ⟨by omega, hst.col⟩
  unfold stringScroll
  split
  · exact ⟨hwrap.1, by show l.height - 1 < l.height; omega, Nat.le_trans pushUp_col_le hwrap.2⟩
  · exact ⟨hwrap.1, by omega, hwrap.2⟩

theorem stringLetter_stringAt (h : l.Sound) (c : BitVec 8) (hst : AtCell l st) :
    StringAt l (l.stringLetter c st) := by
  have hx := hst.x
  have hy : st.1.y < 65536 := by
    have hsmall := h.cells_small
    have hle := h.height_le
    have hlt := hst.y
    omega
  unfold stringLetter
  split
  · exact ⟨Nat.le_of_lt hx, hy, spaces_col_le h 8 hst.col⟩
  · split
    · exact ⟨Nat.le_of_lt hx, hy, Nat.zero_le _⟩
    · split
      · exact ⟨Nat.le_of_lt hx, hy, hst.col⟩
      · exact ⟨hx, hy, Nat.le_of_lt hx⟩

theorem foldl_stringAt (h : l.Sound) (text : List (BitVec 8)) :
    ∀ {st : Pen × Spot}, StringAt l st → StringAt l (text.foldl l.stringChar st) := by
  induction text with
  | nil =>
    intro st hst
    exact hst
  | cons c text ih =>
    intro st hst
    exact ih (stringLetter_stringAt h c (stringScroll_atCell h hst))

theorem stringEntry_col_le (h : l.Sound) (hp : p.col ≤ l.width) (hrow : p.row < 65536)
    (text : List (BitVec 8)) : (l.stringEntry p text).col ≤ l.width := by
  have hstart : StringAt l (⟨p.col, p.row⟩, p) := ⟨hp, hrow, hp⟩
  exact (foldl_stringAt h text hstart).col

end Layout

/-! ## Screens -/

structure Screen where
  layout : Layout
  foreground : BitVec 32
  background : BitVec 32
  highlight : BitVec 32
  spot : Spot
  bytes : Mem

/-- The colour byte of a cell. -/
def cellColor (foreground background : BitVec 32) : BitVec 8 :=
  (foreground ||| background <<< 4).setWidth 8

namespace Screen

def moveTo (scr : Screen) (p : Spot) : Screen := { scr with spot := p }

def setByte (scr : Screen) (k : Nat) (v : BitVec 8) : Screen :=
  { scr with bytes := write8 scr.bytes k v }

def entry (scr : Screen) (foreground background : BitVec 32) (letter : BitVec 8) (x y : Nat) :
    Screen :=
  let offset := 2 * (x + y * scr.layout.width)
  ((scr.setByte offset letter).setByte (offset + 1) (cellColor foreground background)).moveTo
    { scr.spot with col := x }

def moveCursor (scr : Screen) (x y : Nat) : Screen :=
  if scr.layout.cursorEnabled then scr.entry scr.highlight scr.background 0 x y else scr

/-- Every row moves up by one, and the bottom row is cleared. -/
def shiftRows (scr : Screen) : Screen :=
  let rowSize := 2 * scr.layout.width
  let amt := rowSize * (scr.layout.height - 1)
  { scr with bytes := fill (move scr.bytes 0 rowSize amt) amt rowSize 0 }

def pushUp (scr : Screen) : Screen := scr.shiftRows.moveCursor 0 (scr.layout.height - 1)

def wrap (scr : Screen) : Screen := scr.moveTo (scr.layout.wrap scr.spot)

def settle (scr : Screen) : Screen :=
  if scr.layout.height ≤ scr.spot.row then
    (scr.moveTo { scr.spot with row := scr.layout.height - 1 }).pushUp
  else scr

def cursorHere (scr : Screen) : Screen := scr.moveCursor scr.spot.col scr.spot.row

def stepCol (scr : Screen) : Screen := scr.moveTo { scr.spot with col := scr.spot.col + 1 }

def entryHere (scr : Screen) (foreground background : BitVec 32) (letter : BitVec 8) : Screen :=
  scr.entry foreground background letter scr.spot.col scr.spot.row

def autoEntry (scr : Screen) (foreground background : BitVec 32) (letter : BitVec 8) : Screen :=
  (scr.wrap.settle.entryHere foreground background letter).stepCol

def putChar (scr : Screen) (letter : BitVec 8) : Screen :=
  let next := scr.autoEntry scr.foreground scr.background letter
  if next.layout.followingInput then next.wrap.settle.cursorHere else next

def backspace (scr : Screen) : Screen :=
  if scr.spot.col = 0 then scr
  else
    let x := scr.spot.col - 1
    ((scr.moveCursor x scr.spot.row).putChar (ch ' ')).moveCursor x scr.spot.row

def spaces : Nat → Screen → Screen
  | 0, scr => scr
  | n + 1, scr => spaces n (scr.putChar (ch ' '))

def stringWrap (st : Pen × Screen) : Pen × Screen :=
  if st.2.layout.width ≤ st.1.x then
    (⟨0, st.1.y + 1⟩, st.2.moveTo { st.2.spot with row := (st.1.y + 1) % 65536 })
  else st

def stringScroll (st : Pen × Screen) : Pen × Screen :=
  if st.2.layout.height ≤ st.1.y then (⟨st.1.x, st.2.layout.height - 1⟩, st.2.pushUp) else st

def stringLetter (foreground background : BitVec 32) (c : BitVec 8) (st : Pen × Screen) :
    Pen × Screen :=
  if c = ch '\t' then (st.1, st.2.spaces 8)
  else if c = ch '\n' then (st.1, st.2.moveTo st.2.spot.nextRow)
  else if c = 0 then st
  else (⟨st.1.x + 1, st.1.y⟩, st.2.entry foreground background c st.1.x st.1.y)

def stringChar (foreground background : BitVec 32) (st : Pen × Screen) (c : BitVec 8) :
    Pen × Screen :=
  stringLetter foreground background c (stringScroll (stringWrap st))

def stringEntry (scr : Screen) (foreground background : BitVec 32) (text : List (BitVec 8)) :
    Screen :=
  (text.foldl (stringChar foreground background) (⟨scr.spot.col, scr.spot.row⟩, scr)).2

def println (scr : Screen) (foreground background : BitVec 32) (text : List (BitVec 8)) : Screen :=
  let next := scr.stringEntry foreground background text
  (next.moveTo next.spot.nextRow).settle.cursorHere

def autoPrint (scr : Screen) (foreground background : BitVec 32) (text : List (BitVec 8)) :
    Screen :=
  (scr.stringEntry foreground background text).stepCol.cursorHere

/-! ## The position after a routine -/

variable (scr : Screen)

@[simp] theorem moveTo_layout (p : Spot) : (scr.moveTo p).layout = scr.layout := rfl

@[simp] theorem moveTo_spot (p : Spot) : (scr.moveTo p).spot = p := rfl

@[simp] theorem entry_layout (fg bg : BitVec 32) (letter : BitVec 8) (x y : Nat) :
    (scr.entry fg bg letter x y).layout = scr.layout := rfl

@[simp] theorem entry_spot (fg bg : BitVec 32) (letter : BitVec 8) (x y : Nat) :
    (scr.entry fg bg letter x y).spot = { scr.spot with col := x } := rfl

@[simp] theorem shiftRows_layout : scr.shiftRows.layout = scr.layout := rfl

@[simp] theorem moveCursor_layout (x y : Nat) : (scr.moveCursor x y).layout = scr.layout := by
  unfold moveCursor
  split <;> rfl

theorem moveCursor_spot (x y : Nat) :
    (scr.moveCursor x y).spot =
      if scr.layout.cursorEnabled then { scr.spot with col := x } else scr.spot := by
  unfold moveCursor
  split <;> rfl

@[simp] theorem pushUp_layout : scr.pushUp.layout = scr.layout := by
  rw [pushUp, moveCursor_layout, shiftRows_layout]

@[simp] theorem pushUp_spot : scr.pushUp.spot = scr.layout.pushUp scr.spot := by
  rw [pushUp, moveCursor_spot]
  rfl

@[simp] theorem wrap_layout : scr.wrap.layout = scr.layout := rfl

@[simp] theorem wrap_spot : scr.wrap.spot = scr.layout.wrap scr.spot := rfl

theorem wrap_eq_self (h : scr.spot.col < scr.layout.width) : scr.wrap = scr := by
  rw [wrap, Layout.wrap, if_neg (by omega)]
  rfl

theorem wrap_eq_nextRow (h : scr.layout.width ≤ scr.spot.col) :
    scr.wrap = scr.moveTo scr.spot.nextRow := by
  rw [wrap, Layout.wrap, if_pos h]

theorem settle_eq_self (h : scr.spot.row < scr.layout.height) : scr.settle = scr := by
  rw [settle, if_neg (by omega)]

theorem settle_eq_pushUp (h : scr.layout.height ≤ scr.spot.row) :
    scr.settle = (scr.moveTo ⟨scr.layout.height - 1, scr.spot.col⟩).pushUp := by
  rw [settle, if_pos h]

@[simp] theorem settle_layout : scr.settle.layout = scr.layout := by
  unfold settle
  split
  · rw [pushUp_layout, moveTo_layout]
  · rfl

@[simp] theorem settle_spot : scr.settle.spot = scr.layout.settle scr.spot := by
  unfold settle Layout.settle
  split
  · rw [pushUp_spot]
    rfl
  · rfl

/-- Drawing the cursor at the position of the context leaves that position. -/
@[simp] theorem cursorHere_spot : scr.cursorHere.spot = scr.spot := by
  rw [cursorHere, moveCursor_spot]
  split <;> rfl

@[simp] theorem cursorHere_layout : scr.cursorHere.layout = scr.layout := moveCursor_layout _ _ _

@[simp] theorem stepCol_layout : scr.stepCol.layout = scr.layout := rfl

@[simp] theorem stepCol_spot :
    scr.stepCol.spot = { scr.spot with col := scr.spot.col + 1 } := rfl

@[simp] theorem entryHere_layout (fg bg : BitVec 32) (letter : BitVec 8) :
    (scr.entryHere fg bg letter).layout = scr.layout := rfl

@[simp] theorem entryHere_spot (fg bg : BitVec 32) (letter : BitVec 8) :
    (scr.entryHere fg bg letter).spot = scr.spot := rfl

@[simp] theorem autoEntry_layout (fg bg : BitVec 32) (letter : BitVec 8) :
    (scr.autoEntry fg bg letter).layout = scr.layout := by
  rw [autoEntry, stepCol_layout, entryHere_layout, settle_layout, wrap_layout]

@[simp] theorem autoEntry_spot (fg bg : BitVec 32) (letter : BitVec 8) :
    (scr.autoEntry fg bg letter).spot = scr.layout.autoEntry scr.spot := by
  rw [autoEntry, stepCol_spot, entryHere_spot, settle_spot, wrap_layout, wrap_spot]
  rfl

@[simp] theorem putChar_layout (letter : BitVec 8) : (scr.putChar letter).layout = scr.layout := by
  unfold putChar
  dsimp only
  split
  · rw [cursorHere_layout, settle_layout, wrap_layout, autoEntry_layout]
  · exact autoEntry_layout _ _ _ _

@[simp] theorem putChar_spot (letter : BitVec 8) :
    (scr.putChar letter).spot = scr.layout.putChar scr.spot := by
  unfold putChar Layout.putChar
  simp only [autoEntry_layout]
  split
  · rw [cursorHere_spot, settle_spot, wrap_layout, wrap_spot, autoEntry_layout, autoEntry_spot]
  · exact autoEntry_spot _ _ _ _

theorem spaces_spot (n : Nat) :
    ∀ scr : Screen, (spaces n scr).layout = scr.layout ∧
      (spaces n scr).spot = scr.layout.spaces n scr.spot := by
  induction n with
  | zero =>
    intro scr
    exact ⟨rfl, rfl⟩
  | succ n ih =>
    intro scr
    obtain ⟨hl, hs⟩ := ih (scr.putChar (ch ' '))
    rw [putChar_layout] at hl hs
    rw [putChar_spot] at hs
    exact ⟨hl, hs⟩

/-- The screen and the pen of a string, without the bytes. -/
def place (st : Pen × Screen) : Pen × Spot := (st.1, st.2.spot)

theorem stringWrap_place (st : Pen × Screen) :
    (stringWrap st).2.layout = st.2.layout ∧
      place (stringWrap st) = st.2.layout.stringWrap (place st) := by
  unfold stringWrap Layout.stringWrap place
  split <;> exact ⟨rfl, rfl⟩

theorem stringScroll_place (st : Pen × Screen) :
    (stringScroll st).2.layout = st.2.layout ∧
      place (stringScroll st) = st.2.layout.stringScroll (place st) := by
  unfold stringScroll Layout.stringScroll place
  split
  · exact ⟨pushUp_layout _, by rw [pushUp_spot]⟩
  · exact ⟨rfl, rfl⟩

theorem stringLetter_place (fg bg : BitVec 32) (c : BitVec 8) (st : Pen × Screen) :
    (stringLetter fg bg c st).2.layout = st.2.layout ∧
      place (stringLetter fg bg c st) = st.2.layout.stringLetter c (place st) := by
  unfold stringLetter Layout.stringLetter place
  split
  · obtain ⟨hl, hs⟩ := spaces_spot 8 st.2
    exact ⟨hl, by rw [hs]⟩
  · split
    · exact ⟨rfl, rfl⟩
    · split <;> exact ⟨rfl, rfl⟩

theorem stringChar_place (fg bg : BitVec 32) (st : Pen × Screen) (c : BitVec 8) :
    (stringChar fg bg st c).2.layout = st.2.layout ∧
      place (stringChar fg bg st c) = st.2.layout.stringChar (place st) c := by
  obtain ⟨hwl, hwp⟩ := stringWrap_place st
  obtain ⟨hsl, hsp⟩ := stringScroll_place (stringWrap st)
  obtain ⟨hll, hlp⟩ := stringLetter_place fg bg c (stringScroll (stringWrap st))
  rw [hsl, hwl] at hll hlp
  rw [hwl] at hsp
  exact ⟨hll, by rw [stringChar, hlp, hsp, hwp]; rfl⟩

theorem foldl_place (fg bg : BitVec 32) (text : List (BitVec 8)) :
    ∀ st : Pen × Screen, (text.foldl (stringChar fg bg) st).2.layout = st.2.layout ∧
      place (text.foldl (stringChar fg bg) st) =
        text.foldl st.2.layout.stringChar (place st) := by
  induction text with
  | nil =>
    intro st
    exact ⟨rfl, rfl⟩
  | cons c text ih =>
    intro st
    obtain ⟨hl, hp⟩ := stringChar_place fg bg st c
    obtain ⟨ihl, ihp⟩ := ih (stringChar fg bg st c)
    rw [hl] at ihl ihp
    rw [hp] at ihp
    exact ⟨ihl, ihp⟩

@[simp] theorem stringEntry_layout (fg bg : BitVec 32) (text : List (BitVec 8)) :
    (scr.stringEntry fg bg text).layout = scr.layout := (foldl_place fg bg text _).1

@[simp] theorem stringEntry_spot (fg bg : BitVec 32) (text : List (BitVec 8)) :
    (scr.stringEntry fg bg text).spot = scr.layout.stringEntry scr.spot text :=
  congrArg Prod.snd (foldl_place fg bg text (⟨scr.spot.col, scr.spot.row⟩, scr)).2

end Screen

end FeralKernel
