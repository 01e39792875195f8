import FeralKernel.Console.Terminal
import Mathlib.Data.List.TakeDrop

/-!
# Backspace

`InternalVgaBackspace` takes the last character back as long as it stands in the row of the
position.  At the start of a row there is nothing it goes back to: right after the last
character of a row, the position is at the start of the next one.
-/

namespace FeralKernel

open Verif.Program

/-! ## What a user sees -/

/-- The address of a cell. -/
def cellAt (ctx : VgaContext) (r c : Nat) : Nat :=
  phys (ctx.swappedBuffer + BitVec.ofNat 64 (2 * (r * ctx.screenWidth.toNat + c)))

/-- Two machines show the same characters and are at the same position. -/
structure SameText (t u : Machine VgaContext) : Prop where
  row : t.statics.currentRow = u.statics.currentRow
  col : t.statics.currentCol = u.statics.currentCol
  letters : ∀ r c, r < t.statics.screenHeight.toNat → c < t.statics.screenWidth.toNat →
    t.mem (cellAt t.statics r c) = u.mem (cellAt u.statics r c)

/-- The same, of the screens that are shown. -/
structure Screen.SameText (scr scr' : Screen) : Prop where
  spot : scr.spot = scr'.spot
  letters : ∀ i, i < scr.layout.width * scr.layout.height → scr.letter i = scr'.letter i

section SameText

variable {s t u : Machine VgaContext} {scr scr' : Screen}

theorem Draws.letter_cell (h : Draws s t scr) (hr : Ready s) {r c : Nat}
    (hr' : r < scr.layout.height) (hc : c < scr.layout.width) :
    t.mem (cellAt t.statics r c) = scr.letter (r * scr.layout.width + c) := by
  have hcell : c + r * scr.layout.width < scr.layout.width * scr.layout.height :=
    Layout.Sound.cell_lt hc hr'
  rw [cellAt, h.width, phys_add (h.spans hr) (by omega), ← h.shows]
  rfl

theorem Draws.sameText_iff (h : Draws s t scr) (h' : Draws s u scr') (hr : Ready s) :
    SameText t u ↔ scr.SameText scr' := by
  have hlayout : scr'.layout = scr.layout := h'.layout.trans h.layout.symm
  have hl := h.sound hr
  have hwidth := hl.width
  constructor
  · intro hsame
    refine ⟨?_, fun i hi => ?_⟩
    · rw [← h.spot, ← h'.spot, VgaContext.spot, VgaContext.spot, hsame.row, hsame.col]
    · have hrow : i / scr.layout.width < scr.layout.height := Nat.div_lt_of_lt_mul hi
      have hcol : i % scr.layout.width < scr.layout.width := Nat.mod_lt _ (by omega)
      have hcell := hsame.letters _ _ (by rw [h.height]; exact hrow) (by rw [h.width]; exact hcol)
      rw [h.letter_cell hr hrow hcol, h'.letter_cell hr (by rw [hlayout]; exact hrow)
        (by rw [hlayout]; exact hcol), hlayout, Nat.div_add_mod'] at hcell
      exact hcell
  · intro hsame
    refine ⟨?_, ?_, fun r c hrow hcol => ?_⟩
    · apply BitVec.eq_of_toNat_eq
      rw [h.row, h'.row, hsame.spot]
    · apply BitVec.eq_of_toNat_eq
      rw [h.col, h'.col, hsame.spot]
    · rw [h.height] at hrow
      rw [h.width] at hcol
      have hcell : c + r * scr.layout.width < scr.layout.width * scr.layout.height :=
        Layout.Sound.cell_lt hcol hrow
      rw [h.letter_cell hr hrow hcol, h'.letter_cell hr (by rw [hlayout]; exact hrow)
        (by rw [hlayout]; exact hcol), hlayout]
      exact hsame.letters _ (by omega)

end SameText

/-! ## Taking a character back -/

section Backspace

variable {scr scr' : Screen} {text : List (BitVec 8)} {q r : Nat}

theorem getD_dropLast (text : List (BitVec 8)) (i : Nat) :
    text.dropLast.getD i 0 = if i + 1 = text.length then 0 else text.getD i 0 := by
  rw [List.getD_eq_getElem?_getD, List.getD_eq_getElem?_getD, List.getElem?_dropLast]
  by_cases hlt : i < text.length - 1
  · rw [if_pos hlt, if_neg (by omega)]
  · rw [if_neg hlt]
    by_cases he : i + 1 = text.length
    · rw [if_pos he]
      rfl
    · rw [if_neg he, List.getElem?_eq_none (by omega)]

/-- `VgaPutChar` where the row goes on behind the character. -/
theorem putChar_inRow {c : BitVec 8} (hfollow : scr.layout.followingInput = true)
    (hrow : scr.spot.row < scr.layout.height) (hcol : scr.spot.col + 1 < scr.layout.width) :
    scr.putChar c = ((scr.entry scr.foreground scr.background c scr.spot.col scr.spot.row).moveTo
      ⟨scr.spot.row, scr.spot.col + 1⟩).cursorHere := by
  have hput : scr.autoEntry scr.foreground scr.background c =
      (scr.entry scr.foreground scr.background c scr.spot.col scr.spot.row).moveTo
        ⟨scr.spot.row, scr.spot.col + 1⟩ := by
    rw [Screen.autoEntry, scr.wrap_eq_self (by omega), scr.settle_eq_self hrow]
    rfl
  have hsettle : ((scr.entry scr.foreground scr.background c scr.spot.col scr.spot.row).moveTo
      ⟨scr.spot.row, scr.spot.col + 1⟩).settle = (scr.entry scr.foreground scr.background c
        scr.spot.col scr.spot.row).moveTo ⟨scr.spot.row, scr.spot.col + 1⟩ :=
    Screen.settle_eq_self _ hrow
  rw [Screen.putChar, hput, Screen.moveTo_layout, Screen.entry_layout, if_pos hfollow,
    Screen.wrap_eq_self _ hcol, hsettle]

/-- The character is written over with a blank and then with the cursor, which has been drawn
behind it as well. -/
theorem backspace_inRow (hcursor : scr.layout.cursorEnabled = true)
    (hfollow : scr.layout.followingInput = true) (hrow : scr.spot.row < scr.layout.height)
    (hcol : scr.spot.col = r + 1) (hr : r + 1 < scr.layout.width) :
    scr.backspace.spot = ⟨scr.spot.row, r⟩ ∧ ∀ i, scr.backspace.letter i =
      if i = r + scr.spot.row * scr.layout.width ∨ i = r + 1 + scr.spot.row * scr.layout.width
      then 0 else scr.letter i := by
  have hback : (scr.moveCursor r scr.spot.row).spot = ⟨scr.spot.row, r⟩ := by
    rw [Screen.moveCursor_spot, if_pos hcursor]
  have hfollow' : (scr.moveCursor r scr.spot.row).layout.followingInput = true := by
    rw [Screen.moveCursor_layout]
    exact hfollow
  have hput := putChar_inRow (c := ch ' ') hfollow'
    (by rw [Screen.moveCursor_layout, hback]; exact hrow)
    (by rw [Screen.moveCursor_layout, hback]; exact hr)
  have hx : scr.spot.col - 1 = r := by omega
  rw [Screen.backspace, if_neg (by omega)]
  dsimp only
  rw [hx, hput, hback]
  refine ⟨?_, fun i => ?_⟩
  · rw [Screen.moveCursor_spot, Screen.cursorHere_layout, Screen.moveTo_layout, Screen.entry_layout,
      Screen.moveCursor_layout, if_pos hcursor, Screen.cursorHere_spot, Screen.moveTo_spot]
  · rw [Screen.letter_moveCursor _ (by simpa using hcursor), Screen.cursorHere,
      Screen.letter_moveCursor _ (by simpa using hcursor)]
    simp only [Screen.moveTo_layout, Screen.entry_layout, Screen.moveCursor_layout,
      Screen.moveTo_spot]
    show (if i = r + scr.spot.row * scr.layout.width then 0
      else if i = r + 1 + scr.spot.row * scr.layout.width then 0
      else ((scr.moveCursor r scr.spot.row).entry _ _ (ch ' ') r scr.spot.row).letter i) = _
    rw [Screen.letter_entry, Screen.moveCursor_layout, Screen.letter_moveCursor _ hcursor]
    by_cases h1 : i = r + scr.spot.row * scr.layout.width
    · rw [if_pos h1, if_pos (Or.inl h1)]
    · rw [if_neg h1, if_neg h1, if_neg h1]
      simp only [h1, false_or]

theorem backspace_layout (scr : Screen) : scr.backspace.layout = scr.layout := by
  rw [Screen.backspace]
  split
  · rfl
  · simp only [Screen.moveCursor_layout, Screen.putChar_layout]

/-- Where the last character stands in the row of the position, it is taken back. -/
theorem Typed.backspace (h : Typed scr text q (r + 1)) (hl : scr.layout.Sound)
    (hcursor : scr.layout.cursorEnabled = true) (hfollow : scr.layout.followingInput = true) :
    Typed scr.backspace text.dropLast q r := by
  have hheight := hl.height
  have hlen := h.length
  have hrest := h.rest
  have hrow := h.row
  have hrows := h.rows
  obtain ⟨hspot, hletter⟩ := backspace_inRow hcursor hfollow (by omega) h.col hrest
  have hlayout := backspace_layout scr
  refine ⟨?_, ?_, ?_, ?_, ?_⟩
  · rw [List.length_dropLast, hlayout]
    omega
  · rw [hlayout]
    omega
  · rw [hspot, hlayout]
    exact hrow
  · rw [hspot]
  · intro i hi
    rw [hlayout] at hi ⊢
    rw [hletter, h.letters i hi, getD_dropLast]
    have hlast : i = r + scr.spot.row * scr.layout.width ↔
        (q - (scr.layout.height - 1)) * scr.layout.width + i + 1 = text.length := by omega
    by_cases h1 : i = r + scr.spot.row * scr.layout.width
    · rw [if_pos (Or.inl h1), if_pos (hlast.mp h1)]
    · rw [if_neg (fun hc => h1 (hlast.mpr hc))]
      by_cases h2 : i = r + 1 + scr.spot.row * scr.layout.width
      · rw [if_pos (Or.inr h2), List.getD_eq_default _ _ (by omega)]
      · rw [if_neg (not_or.mpr ⟨h1, h2⟩)]

/-- Two screens after the same text. -/
theorem Typed.sameText {q' r' : Nat} (h : Typed scr text q r) (h' : Typed scr' text q' r')
    (hlayout : scr'.layout = scr.layout) : scr.SameText scr' := by
  have hq : q = q' := by rw [← h.quotient, ← h'.quotient, hlayout]
  have hr : r = r' := by rw [← h.remainder, ← h'.remainder, hlayout]
  refine ⟨?_, fun i hi => ?_⟩
  · have hrow : scr.spot.row = scr'.spot.row := by rw [h.row, h'.row, hlayout, hq]
    have hcol : scr.spot.col = scr'.spot.col := by rw [h.col, h'.col, hr]
    show Spot.mk scr.spot.row scr.spot.col = Spot.mk scr'.spot.row scr'.spot.col
    rw [hrow, hcol]
  · rw [h.letters i hi, h'.letters i (by rw [hlayout]; exact hi), hlayout, hq]

end Backspace

/-! ## The undo law -/

section Undo

variable {s : Machine VgaContext} {text : List (BitVec 8)}

/-- A screen without characters, and the position at its first cell. -/
structure Blank (s : Machine VgaContext) : Prop where
  spot : s.statics.spot = ⟨0, 0⟩
  letters : ∀ i, i < s.statics.layout.width * s.statics.layout.height → (shown s).letter i = 0

/-- Typing a text and a backspace is typing the text without its last character. -/
def BackspaceUndoes (s : Machine VgaContext) (text : List (BitVec 8)) : Prop :=
  Returns (do forM text vgaPutChar; internalVgaBackspace) s fun _ t =>
    Returns (forM text.dropLast vgaPutChar) s fun _ u => SameText t u

theorem Blank.typed (h : Blank s) (hr : Ready s) : Typed (shown s) [] 0 0 := by
  have hwidth := hr.sound.width
  refine ⟨?_, ?_, ?_, ?_, ?_⟩
  · rw [Nat.zero_mul]
    rfl
  · show 0 < s.statics.layout.width
    omega
  · rw [Nat.zero_sub]
    exact congrArg Spot.row h.spot
  · exact congrArg Spot.col h.spot
  · intro i hi
    rw [h.letters i hi]
    rfl

/-- At the start of a row nothing happens. -/
theorem backspace_at_start {scr : Screen} (hcol : scr.spot.col = 0) : scr.backspace = scr := by
  rw [Screen.backspace, if_pos hcol]

/-- The two runs as screens. -/
theorem backspaceUndoes_iff_screens (hr : Ready s) (hcursor : s.statics.cursorEnabled = true)
    (hfollow : s.statics.followingInput = true) (hblank : Blank s) (text : List (BitVec 8)) :
    ∃ scr scr' q r q' r', scr.layout = s.statics.layout ∧ scr'.layout = s.statics.layout ∧
      Typed scr text q r ∧ Typed scr' text.dropLast q' r' ∧
      (BackspaceUndoes s text ↔ scr.backspace.SameText scr') := by
  have htyped := hblank.typed hr
  obtain ⟨_, t, ht, scr, q, r, hdraws, hscr⟩ :=
    putChars_draws hr hcursor hfollow text (Draws.refl s) htyped
  obtain ⟨_, u, hu, scr', q', r', hdraws', hscr'⟩ :=
    putChars_draws hr hcursor hfollow text.dropLast (Draws.refl s) htyped
  rw [List.nil_append] at hscr hscr'
  have hspot : OnScreen scr.layout scr.spot := by
    have hheight := (hdraws.sound hr).height
    have hrow := hscr.row
    have hrest := hscr.rest
    exact ⟨by omega, by rw [hscr.col]; omega⟩
  obtain ⟨_, v, hv, hback⟩ := internalVgaBackspace_draws hdraws hr hspot
  refine ⟨scr, scr', q, r, q', r', hdraws.layout, hdraws'.layout, hscr, hscr', ?_⟩
  rw [← hback.sameText_iff hdraws' hr]
  constructor
  · intro h
    rw [BackspaceUndoes, returns_bind] at h
    exact ((h.of_eq ht).of_eq hv).of_eq hu
  · intro h
    exact returns_bind.mpr (returns_of_eq ht (returns_of_eq hv (returns_of_eq hu h)))

/-- Behind whole rows the position is at the start of a row, and one character fewer is never
a whole number of rows. -/
theorem not_undoes_of_whole_rows (hr : Ready s) (hcursor : s.statics.cursorEnabled = true)
    (hfollow : s.statics.followingInput = true) (hblank : Blank s) (hne : text ≠ [])
    (hrows : text.length % s.statics.layout.width = 0) : ¬ BackspaceUndoes s text := by
  obtain ⟨scr, scr', q, r, q', r', hl, hl', hscr, hscr', hiff⟩ :=
    backspaceUndoes_iff_screens hr hcursor hfollow hblank text
  have hcol : scr.spot.col = 0 := by rw [hscr.col, ← hscr.remainder, hl, hrows]
  rw [hiff, backspace_at_start hcol]
  intro hsame
  have hrows' := hscr'.remainder
  rw [hl', ← hscr'.col, ← hsame.spot, hcol, List.length_dropLast] at hrows'
  have hpos := List.length_pos_iff.mpr hne
  have hone : s.statics.layout.width ∣ text.length - (text.length - 1) :=
    Nat.dvd_sub (Nat.dvd_of_mod_eq_zero hrows) (Nat.dvd_of_mod_eq_zero hrows')
  rw [show text.length - (text.length - 1) = 1 by omega] at hone
  have hle := Nat.le_of_dvd Nat.one_pos hone
  have hwide := hr.sound.width
  omega

/-- Backspace takes the last character back exactly when that is not the last one of a row. -/
theorem internalVgaBackspace_undoes_iff (hr : Ready s) (hcursor : s.statics.cursorEnabled = true)
    (hfollow : s.statics.followingInput = true) (hblank : Blank s) (hne : text ≠ []) :
    BackspaceUndoes s text ↔ text.length % s.statics.screenWidth.toNat ≠ 0 := by
  constructor
  · intro h hrows
    exact not_undoes_of_whole_rows hr hcursor hfollow hblank hne hrows h
  · intro hrows
    obtain ⟨scr, scr', q, r, q', r', hl, hl', hscr, hscr', hiff⟩ :=
      backspaceUndoes_iff_screens hr hcursor hfollow hblank text
    have hr0 : r ≠ 0 := by
      rw [← hscr.remainder, hl]
      exact hrows
    obtain ⟨n, rfl⟩ := Nat.exists_eq_succ_of_ne_zero hr0
    have hundone := hscr.backspace (by rw [hl]; exact hr.sound) (by rw [hl]; exact hcursor)
      (by rw [hl]; exact hfollow)
    exact hiff.mpr (hundone.sameText hscr' (by rw [backspace_layout, hl, hl']))

end Undo

theorem typingMachine_blank : Blank typingMachine := ⟨rfl, fun _ _ => rfl⟩

theorem internalVgaBackspace_undoes_iff_ok :
    BackspaceUndoes typingMachine (chars "ok") ↔
      (chars "ok").length % typingMachine.statics.screenWidth.toNat ≠ 0 :=
  internalVgaBackspace_undoes_iff typingMachine_ready rfl rfl typingMachine_blank (by decide)

/-- A full row of eighty characters. -/
theorem backspace_keeps_row_end :
    ¬ BackspaceUndoes typingMachine (List.replicate 80 (ch 'x')) :=
  not_undoes_of_whole_rows typingMachine_ready rfl rfl typingMachine_blank (by decide)
    (by rw [List.length_replicate]; decide)

end FeralKernel
