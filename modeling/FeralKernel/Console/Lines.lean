import FeralKernel.Console.SplitPrint
import FeralKernel.Console.SwapBuffers
import Mathlib.Algebra.GroupWithZero.Nat

/-!
# A page of lines

As long as nothing scrolls and the cursor is hidden, as it is while the boot code prints, the
screen is a page: lines of coloured characters, each from the start of a row on and over as many
rows as it takes.  `VgaAutoEntry` and `VgaAutoPrint` go on with the last line, and
`VgaAutoPrintln` ends it.
-/

namespace FeralKernel

open Verif.Program Verif.Bytes

/-! ## Lines as cells -/

/-- A character and its colour. -/
abbrev Cell : Type := BitVec 8 × BitVec 8

def Cell.blank : Cell := (0, 0)

/-- A text in one colour on black. -/
def coloured (foreground : BitVec 32) (text : List (BitVec 8)) : List Cell :=
  text.map fun c => (c, cellColor foreground vgaBlack)

@[simp] theorem length_coloured (fg : BitVec 32) (text : List (BitVec 8)) :
    (coloured fg text).length = text.length := List.length_map _

/-- The rows of a line of `n` characters.  An empty line has one, too. -/
def lineRows (w n : Nat) : Nat := (n - 1) / w + 1

/-- A line with the blank cells up to the end of its last row. -/
def lineCells (w : Nat) (line : List Cell) : List Cell :=
  line ++ List.replicate (lineRows w line.length * w - line.length) Cell.blank

def pageRows (w : Nat) (lines : List (List Cell)) : Nat :=
  (lines.map fun line => lineRows w line.length).sum

def pageCells (w : Nat) (lines : List (List Cell)) : List Cell := lines.flatMap (lineCells w)

section Lines

variable {w : Nat}

theorem le_lineRows (hw : 0 < w) (n : Nat) : n ≤ lineRows w n * w := by
  have hdiv := Nat.div_add_mod (n - 1) w
  have hmod := Nat.mod_lt (n - 1) hw
  rw [Nat.mul_comm] at hdiv
  rw [lineRows, Nat.add_mul, Nat.one_mul]
  omega

theorem length_lineCells (hw : 0 < w) (line : List Cell) :
    (lineCells w line).length = lineRows w line.length * w := by
  have hle := le_lineRows hw line.length
  rw [lineCells, List.length_append, List.length_replicate]
  omega

theorem pageRows_append (lines lines' : List (List Cell)) :
    pageRows w (lines ++ lines') = pageRows w lines + pageRows w lines' := by
  rw [pageRows, List.map_append, List.sum_append, pageRows, pageRows]

theorem pageRows_snoc (lines : List (List Cell)) (line : List Cell) :
    pageRows w (lines ++ [line]) = pageRows w lines + lineRows w line.length :=
  pageRows_append lines [line]

theorem pageCells_snoc (lines : List (List Cell)) (line : List Cell) :
    pageCells w (lines ++ [line]) = pageCells w lines ++ lineCells w line := by
  rw [pageCells, List.flatMap_append, pageCells, List.flatMap_cons, List.flatMap_nil,
    List.append_nil]

theorem length_pageCells (hw : 0 < w) (lines : List (List Cell)) :
    (pageCells w lines).length = pageRows w lines * w := by
  induction lines with
  | nil => rw [pageRows, List.map_nil, List.sum_nil, Nat.zero_mul]; rfl
  | cons line lines ih =>
    rw [pageCells, List.flatMap_cons, List.length_append, length_lineCells hw]
    rw [pageCells] at ih
    rw [ih, ← Nat.add_mul]
    rfl

/-- Cells that are blank anyway. -/
theorem getD_append_blank (cells : List Cell) (n i : Nat) :
    (cells ++ List.replicate n Cell.blank).getD i Cell.blank = cells.getD i Cell.blank := by
  by_cases hi : i < cells.length
  · rw [List.getD_append _ _ _ _ hi]
  · rw [List.getD_append_right _ _ _ _ (by omega), List.getD_eq_default cells _ (by omega)]
    by_cases hn : i - cells.length < n
    · rw [List.getD_replicate _ hn]
    · rw [List.getD_eq_default _ _ (by rw [List.length_replicate]; omega)]

theorem getD_snoc_cell (cells : List Cell) (c : Cell) (i : Nat) :
    (cells ++ [c]).getD i Cell.blank =
      if i = cells.length then c else cells.getD i Cell.blank := by
  by_cases hlt : i < cells.length
  · rw [if_neg (by omega), List.getD_append _ _ _ _ hlt]
  · by_cases he : i = cells.length
    · rw [if_pos he, he, List.getD_append_right _ _ _ _ (Nat.le_refl _), Nat.sub_self]
      rfl
    · have hlen : (cells ++ [c]).length ≤ i := by
        rw [List.length_append, List.length_singleton]
        omega
      rw [if_neg he, List.getD_eq_default _ _ hlen, List.getD_eq_default _ _ (by omega)]

theorem lineRows_mono {n m : Nat} (h : n ≤ m) : lineRows w n ≤ lineRows w m :=
  Nat.succ_le_succ (Nat.div_le_div_right (Nat.sub_le_sub_right h 1))

/-- The row in which a line ends. -/
theorem lineRows_eq (hw : 0 < w) {top row col n : Nat} (hspot : row * w + col = top * w + n)
    (hcol : col ≤ w) (hbegun : col = 0 ↔ n = 0) : top + lineRows w n = row + 1 := by
  rw [lineRows]
  by_cases hn : n = 0
  · have hzero := hbegun.mpr hn
    have hrow : row = top := Nat.eq_of_mul_eq_mul_right hw (by omega)
    rw [hn, hrow, Nat.zero_sub, Nat.zero_div]
  · have hpos : col ≠ 0 := mt hbegun.mp hn
    have hlt : top * w < (row + 1) * w := by
      rw [Nat.add_mul]
      omega
    have hle : top ≤ row := Nat.le_of_lt_succ (Nat.lt_of_mul_lt_mul_right hlt)
    obtain ⟨k, rfl⟩ := Nat.exists_eq_add_of_le hle
    have hn1 : n - 1 = w * k + (col - 1) := by
      rw [Nat.add_mul] at hspot
      rw [Nat.mul_comm w k]
      omega
    rw [hn1, Nat.mul_add_div hw, Nat.div_eq_of_lt (by omega)]
    omega

end Lines

/-! ## Screens that show a page -/

namespace Screen

def cell (scr : Screen) (i : Nat) : Cell := (scr.bytes (2 * i), scr.bytes (2 * i + 1))

theorem cell_entry (scr : Screen) (fg bg : BitVec 32) (c : BitVec 8) (x y i : Nat) :
    (scr.entry fg bg c x y).cell i =
      if i = x + y * scr.layout.width then (c, cellColor fg bg) else scr.cell i := by
  have hfst := letter_entry scr fg bg c x y i
  have hsnd : (scr.entry fg bg c x y).bytes (2 * i + 1) =
      if i = x + y * scr.layout.width then cellColor fg bg else scr.bytes (2 * i + 1) := by
    show write8 (write8 scr.bytes (2 * (x + y * scr.layout.width)) c)
      (2 * (x + y * scr.layout.width) + 1) (cellColor fg bg) (2 * i + 1) = _
    generalize x + y * scr.layout.width = n
    by_cases h : i = n
    · rw [if_pos h, h, write8_same]
    · rw [if_neg h, write8_outside (by omega), write8_outside (by omega)]
  refine Prod.ext ?_ ?_
  · refine hfst.trans ?_
    split <;> rfl
  · refine hsnd.trans ?_
    split <;> rfl

end Screen

/-- The screen shows `lines`, and `line` as far as it has been printed. -/
structure Page (scr : Screen) (lines : List (List Cell)) (line : List Cell) : Prop where
  hidden : scr.layout.cursorEnabled = false
  spot : scr.spot.row * scr.layout.width + scr.spot.col =
    pageRows scr.layout.width lines * scr.layout.width + line.length
  col : scr.spot.col ≤ scr.layout.width
  begun : scr.spot.col = 0 ↔ line.length = 0
  cells : ∀ i, i < scr.layout.width * scr.layout.height →
    scr.cell i = (pageCells scr.layout.width lines ++ line).getD i Cell.blank

section Page

variable {scr : Screen} {lines : List (List Cell)} {line : List Cell} {fg bg : BitVec 32}
  {c : BitVec 8}

/-- With a hidden cursor nothing is drawn where it is moved to. -/
theorem Screen.cursorHere_hidden (h : scr.layout.cursorEnabled = false) : scr.cursorHere = scr := by
  rw [cursorHere, moveCursor, h]
  exact if_neg Bool.false_ne_true

theorem Page.blank (hhidden : scr.layout.cursorEnabled = false)
    (hblank : BlankTo 0 (scr.layout.width * scr.layout.height) scr) (hspot : scr.spot = ⟨0, 0⟩) :
    Page scr [] [] := by
  refine ⟨hhidden, ?_, ?_, ?_, fun i hi => ?_⟩
  · rw [hspot]
    rfl
  · rw [hspot]
    exact Nat.zero_le _
  · rw [hspot]
    exact iff_of_true rfl rfl
  · obtain ⟨hletter, hcolor⟩ := hblank i hi
    exact Prod.ext hletter hcolor

theorem Page.congr {scr' : Screen} (h : Page scr lines line) (hlayout : scr'.layout = scr.layout)
    (hspot : scr'.spot = scr.spot)
    (hcells : ∀ i, i < scr.layout.width * scr.layout.height → scr'.cell i = scr.cell i) :
    Page scr' lines line := by
  refine ⟨?_, ?_, ?_, ?_, ?_⟩
  · rw [hlayout]
    exact h.hidden
  · rw [hlayout, hspot]
    exact h.spot
  · rw [hlayout, hspot]
    exact h.col
  · rw [hspot]
    exact h.begun
  · rw [hlayout]
    exact fun i hi => (hcells i hi).trans (h.cells i hi)

/-- A character in the cell behind what has been printed. -/
theorem Page.snoc {scr' : Screen} {c : Cell} (h : Page scr lines line) (hl : scr.layout.Sound)
    (hlayout : scr'.layout = scr.layout)
    (hspot : scr'.spot.row * scr.layout.width + scr'.spot.col =
      scr.spot.row * scr.layout.width + scr.spot.col + 1)
    (hcol : scr'.spot.col ≤ scr.layout.width) (hbegun : scr'.spot.col ≠ 0)
    (hcells : ∀ i, scr'.cell i =
      if i = scr.spot.row * scr.layout.width + scr.spot.col then c else scr.cell i) :
    Page scr' lines (line ++ [c]) := by
  have hend := h.spot
  have hw : 0 < scr.layout.width := by
    have := hl.width
    omega
  have hlen : (line ++ [c]).length = line.length + 1 := by
    rw [List.length_append, List.length_singleton]
  refine ⟨?_, ?_, ?_, ?_, ?_⟩
  · rw [hlayout]
    exact h.hidden
  · rw [hlayout, hlen]
    omega
  · rw [hlayout]
    exact hcol
  · rw [hlen]
    exact iff_of_false hbegun (Nat.succ_ne_zero _)
  · rw [hlayout]
    intro i hi
    have hbehind : (pageCells scr.layout.width lines ++ line).length =
        scr.spot.row * scr.layout.width + scr.spot.col := by
      rw [List.length_append, length_pageCells hw, hend]
    rw [hcells, ← List.append_assoc, getD_snoc_cell, hbehind, h.cells i hi]

/-- There is a cell left in this row, or the next row is on the screen. -/
theorem Page.room (h : Page scr lines line) (hl : scr.layout.Sound)
    (hfit : pageRows scr.layout.width lines + lineRows scr.layout.width (line.length + 1) ≤
      scr.layout.height) :
    (scr.spot.col < scr.layout.width ∧ scr.spot.row < scr.layout.height) ∨
      (scr.spot.col = scr.layout.width ∧ scr.spot.row + 1 < scr.layout.height) := by
  have hspot := h.spot
  have hcol := h.col
  have hw : 0 < scr.layout.width := by
    have := hl.width
    omega
  by_cases hfull : scr.spot.col = scr.layout.width
  · refine Or.inr ⟨hfull, ?_⟩
    have hend : (scr.spot.row + 1) * scr.layout.width + 1 =
        pageRows scr.layout.width lines * scr.layout.width + (line.length + 1) := by
      rw [Nat.add_mul]
      omega
    have hrows := lineRows_eq hw hend (by omega) (iff_of_false (by omega) (by omega))
    omega
  · refine Or.inl ⟨by omega, ?_⟩
    have hend : scr.spot.row * scr.layout.width + (scr.spot.col + 1) =
        pageRows scr.layout.width lines * scr.layout.width + (line.length + 1) := by
      omega
    have hrows := lineRows_eq hw hend (by omega) (iff_of_false (by omega) (by omega))
    omega

/-- The next character, whatever the position of the context is meanwhile. -/
theorem Page.draw (h : Page scr lines line) (hl : scr.layout.Sound) {x y : Nat}
    (hcell : y * scr.layout.width + x = scr.spot.row * scr.layout.width + scr.spot.col)
    (hx : x < scr.layout.width) (q : Spot) (fg bg : BitVec 32) (c : BitVec 8) :
    Page (((scr.moveTo q).entry fg bg c x y).moveTo ⟨y, x + 1⟩) lines
      (line ++ [(c, cellColor fg bg)]) := by
  refine h.snoc hl rfl ?_ hx (Nat.succ_ne_zero _) fun i => ?_
  · exact (Nat.add_assoc _ _ 1).symm.trans (congrArg (· + 1) hcell)
  · refine (Screen.cell_entry (scr.moveTo q) fg bg c x y i).trans ?_
    rw [Screen.moveTo_layout, Nat.add_comm x, hcell]
    rfl

theorem Page.autoEntry (h : Page scr lines line) (hl : scr.layout.Sound)
    (hfit : pageRows scr.layout.width lines + lineRows scr.layout.width (line.length + 1) ≤
      scr.layout.height) (fg bg : BitVec 32) (c : BitVec 8) :
    Page (scr.autoEntry fg bg c) lines (line ++ [(c, cellColor fg bg)]) := by
  rcases h.room hl hfit with ⟨hcol, hrow⟩ | ⟨hcol, hrow⟩
  · rw [Screen.autoEntry, Screen.wrap_eq_self _ hcol, Screen.settle_eq_self _ hrow]
    exact h.draw hl rfl hcol scr.spot fg bg c
  · have hsmall := hl.cells_small
    have hle := hl.height_le
    have hnext : scr.wrap = scr.moveTo ⟨scr.spot.row + 1, 0⟩ := by
      rw [Screen.wrap_eq_nextRow _ (Nat.le_of_eq hcol.symm), Spot.nextRow,
        Nat.mod_eq_of_lt (by omega)]
    have hcell : (scr.spot.row + 1) * scr.layout.width + 0 =
        scr.spot.row * scr.layout.width + scr.spot.col := by
      rw [Nat.add_mul, hcol]
      omega
    have hw : 0 < scr.layout.width := by
      have := hl.width
      omega
    rw [Screen.autoEntry, hnext, Screen.settle_eq_self _ hrow]
    exact h.draw hl hcell hw _ fg bg c

/-- A character of a string is drawn at the pen, and the position of the context is one column
behind the pen from then on. -/
theorem Page.stringChar {x y : Nat} (h : Page (scr.moveTo ⟨y, x⟩) lines line)
    (hl : scr.layout.Sound) (hrow : scr.spot.row = y) (hc : Plain c)
    (hfit : pageRows scr.layout.width lines + lineRows scr.layout.width (line.length + 1) ≤
      scr.layout.height) (fg bg : BitVec 32) :
    ∃ x' y' scr', Screen.stringChar fg bg (⟨x, y⟩, scr) c = (⟨x' + 1, y'⟩, scr') ∧
      scr'.layout = scr.layout ∧ scr'.spot = ⟨y', x'⟩ ∧
      Page (scr'.moveTo ⟨y', x' + 1⟩) lines (line ++ [(c, cellColor fg bg)]) := by
  have hl' : (scr.moveTo ⟨y, x⟩).layout.Sound := hl
  by_cases hx : x < scr.layout.width
  · rcases h.room hl' hfit with ⟨-, hy⟩ | ⟨hfull, -⟩
    · have hy' : y < scr.layout.height := hy
      refine ⟨x, y, scr.entry fg bg c x y, Screen.stringChar_inRow hc hx hy' fg bg, rfl, ?_,
        h.draw hl' rfl hx scr.spot fg bg c⟩
      exact congrArg (Spot.mk · x) hrow
    · exact absurd hfull (Nat.ne_of_lt hx)
  · rcases h.room hl' hfit with ⟨hleft, -⟩ | ⟨hfull, hy⟩
    · exact absurd hleft hx
    · have hfull' : x = scr.layout.width := hfull
      have hy' : y + 1 < scr.layout.height := hy
      have hsmall := hl.cells_small
      have hle := hl.height_le
      have hcell : (y + 1) * scr.layout.width + 0 = y * scr.layout.width + x := by
        rw [Nat.add_mul, hfull']
        omega
      have hw : 0 < scr.layout.width := by
        have := hl.width
        omega
      refine ⟨0, y + 1, _, Screen.stringChar_nextRow hc hw (Nat.le_of_not_lt hx) hy' fg bg, rfl, ?_,
        h.draw hl' hcell hw _ fg bg c⟩
      rw [Screen.entry_spot, Screen.moveTo_spot, Nat.mod_eq_of_lt (by omega)]

/-- The induction is on the text.  The position of the context only follows once a character has
been drawn. -/
theorem Page.stringChars {text : List (BitVec 8)} (hplain : ∀ c ∈ text, Plain c)
    (fg bg : BitVec 32) : ∀ {scr : Screen} {line : List Cell} {x y : Nat},
    Page (scr.moveTo ⟨y, x⟩) lines line → scr.layout.Sound → scr.spot.row = y →
    pageRows scr.layout.width lines + lineRows scr.layout.width (line.length + text.length) ≤
      scr.layout.height →
    ∃ x' y' scr', text.foldl (Screen.stringChar fg bg) (⟨x, y⟩, scr) = (⟨x', y'⟩, scr') ∧
      scr'.layout = scr.layout ∧ scr'.spot.row = y' ∧
      (text ≠ [] → scr'.spot.col + 1 = x') ∧
      Page (scr'.moveTo ⟨y', x'⟩) lines (line ++ text.map fun c => (c, cellColor fg bg)) := by
  induction text with
  | nil =>
    intro scr line x y h _ hrow _
    rw [List.map_nil, List.append_nil]
    exact ⟨x, y, scr, rfl, rfl, hrow, fun hne => absurd rfl hne, h⟩
  | cons c text ih =>
    intro scr line x y h hl hrow hfit
    rw [List.length_cons] at hfit
    have hfirst := lineRows_mono (w := scr.layout.width)
      (show line.length + 1 ≤ line.length + (text.length + 1) by omega)
    obtain ⟨x1, y1, scr1, hchar, hlayout, hspot, hpage⟩ :=
      h.stringChar hl hrow (hplain c List.mem_cons_self) (by omega) fg bg
    have hrest := ih (fun d hd => hplain d (List.mem_cons_of_mem c hd)) hpage
      (by rw [hlayout]; exact hl) (by rw [hspot]) (by
        rw [hlayout, List.length_append, List.length_singleton, Nat.add_assoc, Nat.add_comm 1]
        exact hfit)
    obtain ⟨x2, y2, scr2, hfold, hlayout2, hrow2, hcol2, hpage2⟩ := hrest
    refine ⟨x2, y2, scr2, ?_, hlayout2.trans hlayout, hrow2, fun _ => ?_, ?_⟩
    · rw [List.foldl_cons, hchar, hfold]
    · by_cases htext : text = []
      · subst htext
        rw [List.foldl_nil] at hfold
        obtain ⟨hpen, rfl⟩ := Prod.mk.inj hfold
        rw [hspot]
        exact congrArg Pen.x hpen
      · exact hcol2 htext
    · rw [List.append_assoc] at hpage2
      exact hpage2

/-- A text goes on with the line. -/
theorem Page.autoPrint {text : List (BitVec 8)} (h : Page scr lines line) (hl : scr.layout.Sound)
    (hplain : ∀ c ∈ text, Plain c) (hne : text ≠ [])
    (hfit : pageRows scr.layout.width lines +
      lineRows scr.layout.width (line.length + text.length) ≤ scr.layout.height) (fg : BitVec 32) :
    Page (scr.autoPrint fg vgaBlack text) lines (line ++ coloured fg text) := by
  obtain ⟨x, y, scr', hfold, hlayout, hrow, hcol, hpage⟩ :=
    Page.stringChars hplain fg vgaBlack (show Page (scr.moveTo ⟨_, _⟩) lines line from h) hl rfl hfit
  have hdone : scr'.stepCol = scr'.moveTo ⟨y, x⟩ := by
    rw [Screen.stepCol, hcol hne, ← hrow]
  rw [Screen.autoPrint, Screen.stringEntry, hfold, hdone, Screen.cursorHere_hidden hpage.hidden]
  exact hpage

/-- The line is ended behind a text, which may be empty. -/
theorem Page.println {text : List (BitVec 8)} (h : Page scr lines line) (hl : scr.layout.Sound)
    (hplain : ∀ c ∈ text, Plain c)
    (hfit : pageRows scr.layout.width lines +
      lineRows scr.layout.width (line.length + text.length) < scr.layout.height) (fg : BitVec 32) :
    Page (scr.println fg vgaBlack text) (lines ++ [line ++ coloured fg text]) [] := by
  obtain ⟨x, y, scr', hfold, hlayout, hrow, -, hpage⟩ :=
    Page.stringChars hplain fg vgaBlack (show Page (scr.moveTo ⟨_, _⟩) lines line from h) hl rfl
      (Nat.le_of_lt hfit)
  have hw : 0 < scr'.layout.width := by
    have := hl.width
    rw [hlayout]
    omega
  have hrows := lineRows_eq hw hpage.spot hpage.col hpage.begun
  rw [Screen.moveTo_layout, Screen.moveTo_spot, List.length_append, List.length_map, hlayout]
    at hrows
  dsimp only at hrows
  have hdown : y + 1 < scr'.layout.height := by
    rw [hlayout]
    omega
  have hsmall := hl.cells_small
  have hle := hl.height_le
  have hnext : scr'.moveTo scr'.spot.nextRow = scr'.moveTo ⟨y + 1, 0⟩ := by
    rw [Spot.nextRow, hrow, Nat.mod_eq_of_lt (by rw [hlayout] at hdown; omega)]
  have hhidden : (scr'.moveTo ⟨y + 1, 0⟩).layout.cursorEnabled = false := hpage.hidden
  rw [Screen.println, Screen.stringEntry, hfold]
  dsimp only
  rw [hnext, Screen.settle_eq_self _ hdown, Screen.cursorHere_hidden hhidden]
  refine ⟨hhidden, ?_, Nat.zero_le _, iff_of_true rfl rfl, fun i hi => ?_⟩
  · show (y + 1) * scr'.layout.width + 0 = pageRows scr'.layout.width _ * scr'.layout.width + 0
    rw [pageRows_snoc, List.length_append, length_coloured, hlayout, hrows]
  · rw [List.append_nil, pageCells_snoc, lineCells, ← List.append_assoc, getD_append_blank]
    exact hpage.cells i hi

end Page

/-! ## Runs of calls -/

/-- What has been printed: the lines that are ended, and the one that is not. -/
structure Printout where
  lines : List (List Cell)
  line : List Cell

def Printout.rows (w : Nat) (p : Printout) : Nat :=
  pageRows w p.lines + lineRows w p.line.length

def Printout.cells (w : Nat) (p : Printout) : List Cell := pageCells w p.lines ++ p.line

/-- What a call adds.  The strings are where `s` has them. -/
inductive Prints (s : Machine VgaContext) (p : Printout) : VgaCall → Printout → Prop where
  | autoEntry (fg : VgaColorValue) (c : BitVec 8) :
      Prints s p (.autoEntry fg vgaBlack c) ⟨p.lines, p.line ++ [(c, cellColor fg vgaBlack)]⟩
  | autoPrint {string : Ptr} {text : List (BitVec 8)} (fg : VgaColorValue)
      (hs : Holds s string text) (hplain : ∀ c ∈ text, Plain c) (hne : text ≠ []) :
      Prints s p (.autoPrint fg vgaBlack string) ⟨p.lines, p.line ++ coloured fg text⟩
  | autoPrintln {string : Ptr} {text : List (BitVec 8)} (fg : VgaColorValue)
      (hs : Holds s string text) (hplain : ∀ c ∈ text, Plain c) :
      Prints s p (.autoPrintln fg vgaBlack string) ⟨p.lines ++ [p.line ++ coloured fg text], []⟩

inductive PrintsAll (s : Machine VgaContext) : Printout → List VgaCall → Printout → Prop where
  | nil (p : Printout) : PrintsAll s p [] p
  | cons {p q r : Printout} {c : VgaCall} {calls : List VgaCall} (h : Prints s p c q)
      (hrest : PrintsAll s q calls r) : PrintsAll s p (c :: calls) r

def vgaCalls : List VgaCall → Kern VgaContext Unit
  | [] => pure ()
  | c :: calls => do
    c.run
    vgaCalls calls

section Runs

variable {s t : Machine VgaContext} {scr : Screen} {p q : Printout} {c : VgaCall}
  {calls : List VgaCall}

theorem vgaCalls_append (calls calls' : List VgaCall) :
    vgaCalls (calls ++ calls') = (do vgaCalls calls; vgaCalls calls') := by
  induction calls with
  | nil => rw [List.nil_append, vgaCalls, pure_bind]
  | cons c calls ih => rw [List.cons_append, vgaCalls, vgaCalls, ih, bind_assoc]

theorem VgaCall.run_settings (c : VgaCall) : KeepsSettings c.run := by
  cases c with
  | putChar letter => exact vgaPutChar_settings _
  | autoEntry foreground background letter => exact vgaAutoEntry_settings _ _ _
  | println foreground background string length => exact vgaPrintln_settings _ _ _ _
  | autoPrint foreground background string => exact vgaAutoPrint_settings _ _ _
  | autoPrintln foreground background string => exact vgaAutoPrintln_settings _ _ _
  | backspace => exact internalVgaBackspace_settings

theorem vgaCalls_settings (calls : List VgaCall) : KeepsSettings (vgaCalls calls) := by
  induction calls with
  | nil => exact .pure _
  | cons c calls ih => exact .bind c.run_settings fun _ => ih

theorem Prints.rows_le (h : Prints s p c q) (w : Nat) : p.rows w ≤ q.rows w := by
  cases h with
  | autoEntry fg c =>
    refine Nat.add_le_add_left (lineRows_mono ?_) _
    rw [List.length_append]
    exact Nat.le_add_right _ _
  | autoPrint fg hs hplain hne =>
    refine Nat.add_le_add_left (lineRows_mono ?_) _
    rw [List.length_append]
    exact Nat.le_add_right _ _
  | @autoPrintln string text fg hs hplain =>
    have hline := lineRows_mono (w := w) (Nat.le_add_right p.line.length (coloured fg text).length)
    rw [← List.length_append] at hline
    show pageRows w p.lines + _ ≤ pageRows w (p.lines ++ [_]) + _
    rw [pageRows_snoc]
    omega

theorem PrintsAll.rows_le (h : PrintsAll s p calls q) (w : Nat) : p.rows w ≤ q.rows w := by
  induction h with
  | nil p => exact Nat.le_refl _
  | cons hc _ ih => exact Nat.le_trans (hc.rows_le w) ih

theorem PrintsAll.append {r : Printout} {calls' : List VgaCall} (h : PrintsAll s p calls q)
    (h' : PrintsAll s q calls' r) : PrintsAll s p (calls ++ calls') r := by
  induction h with
  | nil p => exact h'
  | cons hc _ ih => exact .cons hc (ih h')

/-- A text that fits on the screen is shorter than what the length of a string wraps at. -/
theorem Layout.Sound.printed {l : Layout} (hl : l.Sound) {rows before : Nat}
    {text : List (BitVec 8)}
    (hfit : rows + lineRows l.width (before + text.length) ≤ l.height) :
    autoPrinted text = text := by
  have hw : 0 < l.width := by
    have := hl.width
    omega
  have hle := le_lineRows hw (before + text.length)
  have hrows : lineRows l.width (before + text.length) * l.width ≤ l.height * l.width :=
    Nat.mul_le_mul_right _ (by omega)
  have hsmall := hl.cells_small
  rw [Nat.mul_comm l.height] at hrows
  exact autoPrinted_eq (by omega)

/-- A call whose page fits adds to the page what it prints. -/
theorem Prints.run_page (h : Prints s p c q) (hr : Ready s) (ht : Draws s t scr)
    (hp : Page scr p.lines p.line) (hfit : q.rows scr.layout.width ≤ scr.layout.height) :
    Returns c.run t fun _ u => ∃ scr', Draws s u scr' ∧ Page scr' q.lines q.line := by
  have hl := ht.sound hr
  cases h with
  | autoEntry fg letter =>
    refine (vgaAutoEntry_draws ht hr fg vgaBlack letter).mono fun _ u hu => ⟨_, hu, ?_⟩
    refine hp.autoEntry hl ?_ fg vgaBlack letter
    rw [Printout.rows, List.length_append, List.length_singleton] at hfit
    exact hfit
  | autoPrint fg hs hplain hne =>
    rw [Printout.rows, List.length_append, length_coloured] at hfit
    have hdraws := vgaAutoPrint_draws ht hr hs hp.col fg vgaBlack fun hon => by
      rw [hp.hidden] at hon
      exact absurd hon Bool.false_ne_true
    rw [hl.printed hfit] at hdraws
    exact hdraws.mono fun _ u hu => ⟨_, hu, hp.autoPrint hl hplain hne hfit fg⟩
  | autoPrintln fg hs hplain =>
    rw [Printout.rows, pageRows_snoc, List.length_append, length_coloured, Nat.add_assoc] at hfit
    have hone : lineRows scr.layout.width ([] : List Cell).length = 1 := by
      rw [lineRows, List.length_nil, Nat.zero_sub, Nat.zero_div]
    rw [hone] at hfit
    have hdraws := vgaAutoPrintln_draws ht hr hs hp.col fg vgaBlack
    rw [hl.printed (Nat.le_of_lt hfit)] at hdraws
    exact hdraws.mono fun _ u hu => ⟨_, hu, hp.println hl hplain hfit fg⟩

/-- The induction is on the calls.  The page before a call has no more rows than the last. -/
theorem PrintsAll.run_page (h : PrintsAll s p calls q) (hr : Ready s) : ∀ {t : Machine VgaContext}
    {scr : Screen}, Draws s t scr → Page scr p.lines p.line →
    q.rows s.statics.layout.width ≤ s.statics.layout.height →
    Returns (vgaCalls calls) t fun _ u => ∃ scr', Draws s u scr' ∧ Page scr' q.lines q.line := by
  induction h with
  | nil p =>
    intro t scr ht hp _
    rw [vgaCalls, returns_pure]
    exact ⟨scr, ht, hp⟩
  | cons hc hrest ih =>
    intro t scr ht hp hfit
    have hnext := Nat.le_trans (hrest.rows_le s.statics.layout.width) hfit
    rw [← ht.layout] at hnext
    rw [vgaCalls]
    refine (hc.run_page hr ht hp hnext).bind fun _ u hu => ?_
    obtain ⟨scr', hu, hpage⟩ := hu
    exact ih hu hpage hfit

/-- A blanked screen with a hidden cursor is an empty page. -/
theorem kiBlankVgaScreen_page (hr : Ready s) (hhidden : s.statics.layout.cursorEnabled = false)
    {height width : BitVec 32} (hheight : height.toNat = s.statics.layout.height)
    (hwidth : width.toNat = s.statics.layout.width) :
    Returns (kiBlankVgaScreen height width vgaBlack) s fun _ t =>
      Draws s t (shown t) ∧ Page (shown t) [] [] := by
  refine (kiBlankVgaScreen_draws hr hheight hwidth vgaBlack).mono fun _ t ht => ?_
  obtain ⟨scr, hblank, hspot⟩ := ht
  have hlayout := hblank.draws.layout
  obtain rfl := hblank.draws.shows
  refine ⟨hblank.draws, Page.blank ?_ ?_ hspot⟩
  · rw [hlayout]
    exact hhidden
  · rw [hlayout]
    exact hblank.blank

end Runs

end FeralKernel
