import FeralKernel.Console.Draw
import Mathlib.Data.List.GetD

/-!
# A wrapping, scrolling terminal

With the cursor shown and the input followed, `VgaPutChar` types: the screen shows
the end of what has been typed, a row for every `width` characters, and the rows
that no longer fit have been scrolled out at the top.
-/

namespace FeralKernel

open Verif.Program Verif.Bytes

/-! ## The character of a cell -/

namespace Screen

variable (scr : Screen)

def letter (scr : Screen) (i : Nat) : BitVec 8 := scr.bytes (2 * i)

theorem letter_entry (fg bg : BitVec 32) (c : BitVec 8) (x y i : Nat) :
    (scr.entry fg bg c x y).letter i = if i = x + y * scr.layout.width then c else scr.letter i := by
  show write8 (write8 scr.bytes (2 * (x + y * scr.layout.width)) c)
    (2 * (x + y * scr.layout.width) + 1) (cellColor fg bg) (2 * i) = _
  generalize x + y * scr.layout.width = n
  rw [write8_outside (by omega)]
  by_cases h : i = n
  · rw [if_pos h, h, write8_same]
  · rw [if_neg h, write8_outside (by omega)]
    rfl

theorem letter_moveCursor (hcursor : scr.layout.cursorEnabled = true) (x y i : Nat) :
    (scr.moveCursor x y).letter i = if i = x + y * scr.layout.width then 0 else scr.letter i := by
  rw [moveCursor, if_pos hcursor]
  exact letter_entry scr _ _ _ x y i

theorem letter_shiftRows (i : Nat) (hrows : 2 * scr.layout.width * (scr.layout.height - 1) +
      2 * scr.layout.width = 2 * (scr.layout.width * scr.layout.height))
    (hi : i < scr.layout.width * scr.layout.height) :
    scr.shiftRows.letter i =
      if i < scr.layout.width * (scr.layout.height - 1) then scr.letter (i + scr.layout.width)
      else 0 := by
  show fill (move scr.bytes 0 (2 * scr.layout.width)
    (2 * scr.layout.width * (scr.layout.height - 1)))
    (2 * scr.layout.width * (scr.layout.height - 1)) (2 * scr.layout.width) 0 (2 * i) = _
  rw [Nat.mul_assoc 2 scr.layout.width] at hrows ⊢
  by_cases h : i < scr.layout.width * (scr.layout.height - 1)
  · rw [if_pos h, fill_outside (by omega), move_inside (by omega), ← Nat.mul_add]
    rfl
  · rw [if_neg h, fill_inside (by omega)]

/-- The cursor of a scroll is drawn in the row that was cleared. -/
theorem letter_pushUp (hl : scr.layout.Sound) (hcursor : scr.layout.cursorEnabled = true) {i : Nat}
    (hi : i < scr.layout.width * scr.layout.height) :
    scr.pushUp.letter i =
      if i < scr.layout.width * (scr.layout.height - 1) then scr.letter (i + scr.layout.width)
      else 0 := by
  rw [pushUp, letter_moveCursor scr.shiftRows hcursor, letter_shiftRows scr i hl.rows hi]
  split
  · rename_i h
    rw [if_neg]
    rw [h, shiftRows_layout, Nat.zero_add, Nat.mul_comm]
    exact Nat.lt_irrefl _
  · rfl

end Screen

/-! ## Typing -/

/-- The screen after `text` has been typed: `q` full rows and `r` characters. -/
structure Typed (scr : Screen) (text : List (BitVec 8)) (q r : Nat) : Prop where
  length : text.length = q * scr.layout.width + r
  rest : r < scr.layout.width
  row : scr.spot.row = q - (q - (scr.layout.height - 1))
  col : scr.spot.col = r
  letters : ∀ i, i < scr.layout.width * scr.layout.height →
    scr.letter i = text.getD ((q - (scr.layout.height - 1)) * scr.layout.width + i) 0

section Typing

variable {scr : Screen} {text : List (BitVec 8)} {q r : Nat}

theorem getD_snoc (text : List (BitVec 8)) (c : BitVec 8) (i : Nat) :
    (text ++ [c]).getD i 0 = if i = text.length then c else text.getD i 0 := by
  by_cases hlt : i < text.length
  · rw [if_neg (by omega), List.getD_append _ _ _ _ hlt]
  · by_cases he : i = text.length
    · rw [if_pos he, he, List.getD_append_right _ _ _ _ (Nat.le_refl _), Nat.sub_self]
      rfl
    · have hlen : (text ++ [c]).length ≤ i := by
        rw [List.length_append, List.length_singleton]
        omega
      rw [if_neg he, List.getD_eq_default _ _ hlen, List.getD_eq_default _ _ (by omega)]

/-- The rows above the one being typed, scrolled out or on the screen. -/
theorem Typed.rows (h : Typed scr text q r) :
    (q - (scr.layout.height - 1)) * scr.layout.width + scr.spot.row * scr.layout.width =
      q * scr.layout.width := by
  rw [← Nat.add_mul, h.row]
  congr 1
  omega

/-- A character in the cell behind the text. -/
theorem Typed.entry_letters (h : Typed scr text q r) (fg bg : BitVec 32) (c : BitVec 8) {i : Nat}
    (hi : i < scr.layout.width * scr.layout.height) :
    (scr.entry fg bg c scr.spot.col scr.spot.row).letter i =
      (text ++ [c]).getD ((q - (scr.layout.height - 1)) * scr.layout.width + i) 0 := by
  have hrows := h.rows
  have hlen := h.length
  rw [Screen.letter_entry, getD_snoc, h.letters i hi, h.col]
  have hcell : i = r + scr.spot.row * scr.layout.width ↔
      (q - (scr.layout.height - 1)) * scr.layout.width + i = text.length := by
    omega
  by_cases he : i = r + scr.spot.row * scr.layout.width
  · rw [if_pos he, if_pos (hcell.mp he)]
  · rw [if_neg he, if_neg (fun hc => he (hcell.mpr hc))]

/-- What `VgaAutoEntry` makes of the screen, before the cursor is moved. -/
theorem Typed.autoEntry (h : Typed scr text q r) (hl : scr.layout.Sound) (fg bg : BitVec 32)
    (c : BitVec 8) :
    scr.autoEntry fg bg c =
      (scr.entry fg bg c scr.spot.col scr.spot.row).moveTo ⟨scr.spot.row, r + 1⟩ := by
  have hheight := hl.height
  have hrest := h.rest
  have hrow := h.row
  have hcol := h.col
  rw [Screen.autoEntry, scr.wrap_eq_self (by omega), scr.settle_eq_self (by omega),
    Screen.entryHere, Screen.stepCol, Screen.entry_spot, h.col]

/-- The cursor is drawn over the cell behind the text, which is blank. -/
theorem Typed.cursorHere (h : Typed scr text q r) (hcursor : scr.layout.cursorEnabled = true) :
    Typed scr.cursorHere text q r := by
  have hrows := h.rows
  have hlen := h.length
  refine ⟨?_, ?_, ?_, ?_, ?_⟩
  · rw [Screen.cursorHere_layout]
    exact h.length
  · rw [Screen.cursorHere_layout]
    exact h.rest
  · rw [Screen.cursorHere_layout, Screen.cursorHere_spot]
    exact h.row
  · rw [Screen.cursorHere_spot]
    exact h.col
  · intro i hi
    rw [Screen.cursorHere_layout] at hi ⊢
    rw [Screen.cursorHere, scr.letter_moveCursor hcursor, h.letters i hi]
    by_cases he : i = scr.spot.col + scr.spot.row * scr.layout.width
    · rw [if_pos he, List.getD_eq_default]
      rw [he, h.col]
      omega
    · rw [if_neg he]

/-- A scroll under a text that fills the screen. -/
theorem typed_pushUp {k : Nat} (hl : scr.layout.Sound) (hcursor : scr.layout.cursorEnabled = true)
    (hrow : scr.spot.row = scr.layout.height - 1) (hcol : scr.spot.col = 0)
    (hfull : text.length = q * scr.layout.width + 0) (hk : q - (scr.layout.height - 1) = k + 1)
    (hletters : ∀ i, i < scr.layout.width * scr.layout.height →
      scr.letter i = text.getD (k * scr.layout.width + i) 0) :
    Typed scr.pushUp text q 0 := by
  have hheight := hl.height
  have hwidth := hl.width
  have hrows := hl.rows
  rw [Nat.mul_assoc] at hrows
  refine ⟨?_, ?_, ?_, ?_, ?_⟩
  · rw [Screen.pushUp_layout]
    exact hfull
  · rw [Screen.pushUp_layout]
    omega
  · rw [Screen.pushUp_layout, Screen.pushUp_spot, Layout.pushUp_row, hrow]
    omega
  · rw [Screen.pushUp_spot]
    have hle := Layout.pushUp_col_le (l := scr.layout) (p := scr.spot)
    omega
  · intro i hi
    rw [Screen.pushUp_layout] at hi ⊢
    rw [scr.letter_pushUp hl hcursor hi, hk, Nat.add_mul, Nat.one_mul]
    by_cases hup : i < scr.layout.width * (scr.layout.height - 1)
    · rw [if_pos hup, hletters _ (by omega), Nat.add_comm i, ← Nat.add_assoc]
    · have hq : q = k + 1 + (scr.layout.height - 1) := by omega
      rw [if_neg hup, List.getD_eq_default]
      rw [hfull, hq, Nat.add_mul, Nat.add_mul, Nat.one_mul, Nat.mul_comm (scr.layout.height - 1)]
      omega

theorem Typed.putChar (h : Typed scr text q r) (hl : scr.layout.Sound)
    (hcursor : scr.layout.cursorEnabled = true) (hfollow : scr.layout.followingInput = true)
    (c : BitVec 8) : ∃ q' r', Typed (scr.putChar c) (text ++ [c]) q' r' := by
  have hheight := hl.height
  have hrest := h.rest
  have hrow := h.row
  have hlen : (text ++ [c]).length = q * scr.layout.width + r + 1 := by
    rw [List.length_append, List.length_singleton, h.length]
  have hrows := h.rows
  have hsmall := hl.cells_small
  have hle := hl.height_le
  have hput : scr.putChar c = ((scr.entry scr.foreground scr.background c scr.spot.col
      scr.spot.row).moveTo ⟨scr.spot.row, r + 1⟩).wrap.settle.cursorHere := by
    rw [Screen.putChar, h.autoEntry hl, Screen.moveTo_layout, Screen.entry_layout, if_pos hfollow]
  have hletters := fun i hi => h.entry_letters (i := i) scr.foreground scr.background c hi
  rw [hput]
  generalize hnext : scr.entry scr.foreground scr.background c scr.spot.col scr.spot.row = next
    at hletters ⊢
  have hlayout : next.layout = scr.layout := by
    rw [← hnext]
    rfl
  have hspot : next.spot.row = scr.spot.row := by
    rw [← hnext]
    rfl
  rw [← hlayout] at hl hcursor hheight hrest hrow hlen hrows hsmall hle hletters
  by_cases hcol : r + 1 < next.layout.width
  · -- the row goes on
    have hon : scr.spot.row < next.layout.height := by omega
    refine ⟨q, r + 1, ?_⟩
    rw [Screen.wrap_eq_self _ hcol, Screen.settle_eq_self _ hon]
    exact Typed.cursorHere ⟨hlen, hcol, hrow, rfl, hletters⟩ hcursor
  · -- a new row begins
    have hwrap : (next.moveTo ⟨scr.spot.row, r + 1⟩).wrap = next.moveTo ⟨scr.spot.row + 1, 0⟩ := by
      rw [Screen.wrap_eq_nextRow _ (show next.layout.width ≤ r + 1 by omega)]
      show next.moveTo ⟨(scr.spot.row + 1) % 65536, 0⟩ = _
      rw [Nat.mod_eq_of_lt (by omega)]
    have hfull : (text ++ [c]).length = (q + 1) * next.layout.width + 0 := by
      rw [hlen, Nat.add_mul]
      omega
    have hzero : 0 < next.layout.width := by omega
    refine ⟨q + 1, 0, ?_⟩
    rw [hwrap]
    by_cases hbottom : scr.spot.row + 1 < next.layout.height
    · have hk : q + 1 - (next.layout.height - 1) = q - (next.layout.height - 1) := by omega
      have hrow' : scr.spot.row + 1 = q + 1 - (q + 1 - (next.layout.height - 1)) := by omega
      rw [← hk] at hletters
      rw [Screen.settle_eq_self _ hbottom]
      exact Typed.cursorHere ⟨hfull, hzero, hrow', rfl, hletters⟩ hcursor
    · have hk : q + 1 - (next.layout.height - 1) = q - (next.layout.height - 1) + 1 := by omega
      have hfar : next.layout.height ≤ scr.spot.row + 1 := by omega
      rw [Screen.settle_eq_pushUp _ hfar]
      refine Typed.cursorHere (typed_pushUp hl hcursor rfl rfl hfull hk hletters) ?_
      rw [Screen.pushUp_layout]
      exact hcursor

theorem Typed.quotient (h : Typed scr text q r) : text.length / scr.layout.width = q := by
  have hrest := h.rest
  rw [h.length, Nat.mul_comm, Nat.mul_add_div (by omega), Nat.div_eq_of_lt hrest, Nat.add_zero]

theorem Typed.remainder (h : Typed scr text q r) : text.length % scr.layout.width = r := by
  rw [h.length, Nat.mul_comm, Nat.mul_add_mod, Nat.mod_eq_of_lt h.rest]

end Typing

/-! ## The run -/

section Run

variable {s t : Machine VgaContext} {scr : Screen} {q r : Nat}

theorem putChars_draws (hr : Ready s) (hcursor : s.statics.cursorEnabled = true)
    (hfollow : s.statics.followingInput = true) (rest : List (BitVec 8)) :
    ∀ {t : Machine VgaContext} {scr : Screen} {done : List (BitVec 8)} {q r : Nat},
      Draws s t scr → Typed scr done q r → Returns (forM rest vgaPutChar) t fun _ u =>
        ∃ scr' q' r', Draws s u scr' ∧ Typed scr' (done ++ rest) q' r' := by
  induction rest with
  | nil =>
    intro t scr done q r h htyped
    rw [List.forM_nil, returns_pure, List.append_nil]
    exact ⟨scr, q, r, h, htyped⟩
  | cons c rest ih =>
    intro t scr done q r h htyped
    have hc : scr.layout.cursorEnabled = true := by
      rw [h.layout]
      exact hcursor
    have hf : scr.layout.followingInput = true := by
      rw [h.layout]
      exact hfollow
    rw [List.forM_cons]
    apply (vgaPutChar_draws h hr c).bind
    intro _ u hu
    obtain ⟨q', r', htyped'⟩ := htyped.putChar (h.sound hr) hc hf c
    have hrest := ih hu htyped'
    rw [List.append_assoc] at hrest
    exact hrest

theorem typed_blank {color : VgaColorValue}
    (hb : Blanking s color (s.statics.layout.width * s.statics.layout.height) t scr)
    (hr : Ready s) (hspot : scr.spot = ⟨0, 0⟩) : Typed scr [] 0 0 := by
  have hl := hb.draws.sound hr
  have hwidth := hl.width
  refine ⟨?_, by omega, ?_, ?_, ?_⟩
  · rw [Nat.zero_mul]
    rfl
  · rw [hspot, Nat.zero_sub]
  · rw [hspot]
  · intro i hi
    rw [hb.draws.layout] at hi
    rw [Screen.letter, (hb.blank i hi).1]
    rfl

theorem vgaPutChar_types (hr : Ready s) (hcursor : s.statics.cursorEnabled = true)
    (hfollow : s.statics.followingInput = true) {height width : BitVec 32}
    (hheight : height.toNat = s.statics.screenHeight.toNat)
    (hwidth : width.toNat = s.statics.screenWidth.toNat) (color : VgaColorValue)
    (text : List (BitVec 8)) :
    Returns (do kiBlankVgaScreen height width color; forM text vgaPutChar) s fun _ t =>
      let k := text.length / width.toNat - (height.toNat - 1)
      (∀ r c, r < height.toNat → c < width.toNat →
        t.mem (phys (s.statics.swappedBuffer + BitVec.ofNat 64 (2 * (r * width.toNat + c)))) =
          text.getD ((k + r) * width.toNat + c) 0) ∧
      t.statics.currentCol.toNat = text.length % width.toNat ∧
      t.statics.currentRow.toNat = text.length / width.toNat - k ∧
      Records (StoresInside s.statics) s t := by
  apply (kiBlankVgaScreen_draws hr hheight hwidth color).bind
  intro _ t1 h1
  obtain ⟨scr, hb, hspot⟩ := h1
  apply (putChars_draws hr hcursor hfollow text hb.draws (typed_blank hb hr hspot)).mono
  intro _ t ht
  obtain ⟨scr', q, r, hdraws, htyped⟩ := ht
  rw [List.nil_append] at htyped
  have hlw : scr'.layout.width = width.toNat := by
    rw [hdraws.layout, hwidth]
    rfl
  have hlh : scr'.layout.height = height.toNat := by
    rw [hdraws.layout, hheight]
    rfl
  have hq := htyped.quotient
  have hr' := htyped.remainder
  have hspans := hdraws.spans hr
  have hletters := htyped.letters
  have hrow := htyped.row
  rw [hlw] at hq hr' hspans hletters
  rw [hlh] at hspans hletters hrow
  refine ⟨?_, ?_, ?_, hdraws.records⟩
  · intro a b ha hb
    have hcell : b + a * width.toNat < width.toNat * height.toNat := by
      rw [← hlw, ← hlh] at *
      exact Layout.Sound.cell_lt hb ha
    have hmem : t.mem (phys t.statics.swappedBuffer + 2 * (a * width.toNat + b)) =
        scr'.letter (a * width.toNat + b) := by
      rw [← hdraws.shows]
      rfl
    rw [← hdraws.buffer, phys_add hspans (by omega), hmem, hletters _ (by omega), hq, Nat.add_mul,
      Nat.add_assoc]
  · rw [hdraws.col, htyped.col, hr']
  · rw [hdraws.row, hrow, hq]

/-- A console in text mode, with the cursor shown and the input followed. -/
def typingMachine : Machine VgaContext where
  mem := fun _ => 0
  log := []
  statics :=
    { framebuffer := kernPhysToVirt 0xB8000, swappedBuffer := kernPhysToVirt 0xB8000
      screenWidth := 80, screenHeight := 25, bpp := 16
      background := vgaBlack, foreground := vgaWhite, highlight := vgaLightBrown
      currentRow := 0, currentCol := 0
      textMode := true, followingInput := true, cursorEnabled := true }

theorem typingMachine_ready : Ready typingMachine :=
  ⟨⟨by decide, by decide, by decide, by decide⟩, by unfold Spans; decide, by decide⟩

/-- A screen full of one letter, and a word that scrolls it. -/
def longText : List (BitVec 8) := List.replicate 2000 (ch 'a') ++ chars "bottom"

theorem longText_first {i : Nat} (hi : i < 2000) : longText.getD i 0 = ch 'a' := by
  have hlen : i < (List.replicate 2000 (ch 'a')).length := by
    rw [List.length_replicate]
    exact hi
  rw [longText, List.getD_append _ _ _ _ hlen, List.getD_replicate _ hi]

theorem longText_last (i : Nat) : longText.getD (2000 + i) 0 = (chars "bottom").getD i 0 := by
  have hlen : (List.replicate 2000 (ch 'a')).length ≤ 2000 + i := by
    rw [List.length_replicate]
    omega
  rw [longText, List.getD_append_right _ _ _ _ hlen, List.length_replicate,
    Nat.add_sub_cancel_left]

theorem vgaPutChar_types_ok :
    Returns (do kiBlankVgaScreen 25 80 vgaBlack; forM longText vgaPutChar) typingMachine
      fun _ t =>
        t.mem (phys (kernPhysToVirt 0xB8000 + BitVec.ofNat 64 (2 * (23 * 80 + 79)))) = ch 'a' ∧
        t.mem (phys (kernPhysToVirt 0xB8000 + BitVec.ofNat 64 (2 * (24 * 80 + 0)))) = ch 'b' ∧
        t.mem (phys (kernPhysToVirt 0xB8000 + BitVec.ofNat 64 (2 * (24 * 80 + 6)))) = 0 ∧
        t.statics.currentCol.toNat = 6 ∧ t.statics.currentRow.toNat = 24 := by
  have hheight : (25 : BitVec 32).toNat = typingMachine.statics.screenHeight.toNat := rfl
  have hwidth : (80 : BitVec 32).toNat = typingMachine.statics.screenWidth.toNat := rfl
  have hlen : longText.length = 2006 := by
    rw [longText, List.length_append, List.length_replicate]
    rfl
  apply (vgaPutChar_types typingMachine_ready rfl rfl hheight hwidth vgaBlack longText).mono
  intro _ t ht
  rw [hlen] at ht
  obtain ⟨hletters, hcol, hrow, -⟩ := ht
  have hlast := hletters 23 79 (by decide) (by decide)
  have hbottom := hletters 24 0 (by decide) (by decide)
  have hblank := hletters 24 6 (by decide) (by decide)
  exact ⟨hlast.trans (longText_first (by decide)), hbottom.trans (longText_last 0),
    hblank.trans (longText_last 6), hcol, hrow⟩

end Run

end FeralKernel
