import FeralKernel.Console.Backspace
import FeralKernel.Console.VgaRun

/-!
# Printing a string in two parts

`VgaAutoPrint` leaves the position one column behind its last character and draws the cursor
there, and the next call starts from that position.  That goes on where the first string would
have gone on as long as the position and the pen of `VgaStringEntry` agree, which an empty
string, a newline, a tab and a wrap at the bottom each put an end to.
-/

namespace FeralKernel

open Verif.Program Verif.Bytes

/-- `n` characters from the position on end on the screen, with a cell to spare if the cursor
is drawn. -/
def Layout.HoldsText (l : Layout) (p : Spot) (n : Nat) : Prop :=
  p.col + n + p.row * l.width ≤ l.width * l.height ∧
    (l.cursorEnabled = true → p.col + n + p.row * l.width < l.width * l.height)

/-- A text that goes on where the one before it ended: its first character is printed there, or
is a newline; where a cursor lies in that cell, a character has to cover it. -/
def GoesOn (cursor : Bool) : List (BitVec 8) → Prop
  | [] => False
  | c :: rest => Plain c ∨ c = ch '\n' ∧ (cursor = false ∨ GoesOn cursor rest)

/-! ## The screen after the first part -/

namespace Screen

variable {scr : Screen} {x y x' y' : Nat} {c : BitVec 8}

/-- A cell that is drawn twice. -/
theorem entry_over {p : Spot} (hcell : x + y * scr.layout.width = x' + y' * scr.layout.width)
    (f b f' b' : BitVec 32) (letter letter' : BitVec 8) :
    ((scr.entry f b letter x y).moveTo p).entry f' b' letter' x' y' =
      (scr.moveTo p).entry f' b' letter' x' y' := by
  have hbytes : ∀ n, write8 (write8 (write8 (write8 scr.bytes n letter) (n + 1) (cellColor f b))
      n letter') (n + 1) (cellColor f' b') =
        write8 (write8 scr.bytes n letter') (n + 1) (cellColor f' b') := by
    intro n
    funext k
    by_cases h1 : k = n + 1
    · rw [h1, write8_same, write8_same]
    · rw [write8_outside (by omega), write8_outside (a := n + 1) (by omega)]
      by_cases h0 : k = n
      · rw [h0, write8_same, write8_same]
      · rw [write8_outside (by omega), write8_outside (a := n + 1) (by omega),
          write8_outside (by omega), write8_outside (a := n) (by omega)]
  have hn := hbytes (2 * (x' + y' * scr.layout.width))
  simp only [entry, setByte, moveTo, hcell, hn]

/-- The cell, and not the position, is where something is drawn. -/
theorem entry_moved (hcell : x + y * scr.layout.width = x' + y' * scr.layout.width)
    (f b : BitVec 32) (letter : BitVec 8) (p q : Spot) :
    (scr.entry f b letter x y).moveTo p = ((scr.moveTo q).entry f b letter x' y').moveTo p := by
  simp only [entry, setByte, moveTo, hcell]

theorem stringChar_inCell (hx : x < scr.layout.width) (hy : y < scr.layout.height)
    (fg bg : BitVec 32) (c : BitVec 8) :
    stringChar fg bg (⟨x, y⟩, scr) c = stringLetter fg bg c (⟨x, y⟩, scr) := by
  have hwrap : stringWrap (⟨x, y⟩, scr) = (⟨x, y⟩, scr) := if_neg (Nat.not_le_of_lt hx)
  have hscroll : stringScroll (⟨x, y⟩, scr) = (⟨x, y⟩, scr) := if_neg (Nat.not_le_of_lt hy)
  rw [stringChar, hwrap, hscroll]

theorem stringChar_inRow (hc : Plain c) (hx : x < scr.layout.width) (hy : y < scr.layout.height)
    (fg bg : BitVec 32) :
    stringChar fg bg (⟨x, y⟩, scr) c = (⟨x + 1, y⟩, scr.entry fg bg c x y) := by
  obtain ⟨htab, hline, hnul⟩ := hc
  rw [stringChar_inCell hx hy, stringLetter, if_neg htab, if_neg hline, if_neg hnul]

theorem stringChar_wrapped (hwidth : 0 < scr.layout.width) (hx : scr.layout.width ≤ x)
    (fg bg : BitVec 32) (c : BitVec 8) :
    stringChar fg bg (⟨x, y⟩, scr) c =
      stringChar fg bg (⟨0, y + 1⟩, scr.moveTo { scr.spot with row := (y + 1) % 65536 }) c := by
  have hwrap : stringWrap (⟨x, y⟩, scr) =
      (⟨0, y + 1⟩, scr.moveTo { scr.spot with row := (y + 1) % 65536 }) := if_pos hx
  have hstay : ∀ p, stringWrap (⟨0, y + 1⟩, scr.moveTo p) = (⟨0, y + 1⟩, scr.moveTo p) :=
    fun p => if_neg (Nat.not_le_of_lt hwidth)
  rw [stringChar, stringChar, hwrap, hstay]

theorem stringChar_nextRow (hc : Plain c) (hwidth : 0 < scr.layout.width)
    (hx : scr.layout.width ≤ x) (hy : y + 1 < scr.layout.height) (fg bg : BitVec 32) :
    stringChar fg bg (⟨x, y⟩, scr) c = (⟨1, y + 1⟩,
      (scr.moveTo { scr.spot with row := (y + 1) % 65536 }).entry fg bg c 0 (y + 1)) := by
  have hmoved : 0 < (scr.moveTo { scr.spot with row := (y + 1) % 65536 }).layout.width := hwidth
  rw [stringChar_wrapped hwidth hx, stringChar_inRow hc hmoved hy]

/-- The same pen and screen, with another column in the context. -/
def atCol (k : Nat) (st : Pen × Screen) : Pen × Screen :=
  (st.1, st.2.moveTo { st.2.spot with col := k })

theorem stringWrap_atCol (k : Nat) (st : Pen × Screen) :
    stringWrap (atCol k st) = atCol k (stringWrap st) := by
  by_cases hx : st.2.layout.width ≤ st.1.x
  · have hwrap : stringWrap st =
        (⟨0, st.1.y + 1⟩, st.2.moveTo { st.2.spot with row := (st.1.y + 1) % 65536 }) := if_pos hx
    rw [hwrap]
    exact if_pos hx
  · have hwrap : stringWrap st = st := if_neg hx
    rw [hwrap]
    exact if_neg hx

/-- A scroll that draws no cursor does not look at the column. -/
theorem stringScroll_atCol {st : Pen × Screen} (hcursor : ¬ st.2.layout.cursorEnabled = true)
    (k : Nat) : stringScroll (atCol k st) = atCol k (stringScroll st) := by
  have hpush : ∀ p, (st.2.moveTo p).pushUp = (st.2.moveTo p).shiftRows := fun p => if_neg hcursor
  have hpush' : st.2.pushUp = st.2.shiftRows := if_neg hcursor
  by_cases hy : st.2.layout.height ≤ st.1.y
  · have hscroll : stringScroll st = (⟨st.1.x, st.2.layout.height - 1⟩, st.2.pushUp) := if_pos hy
    have hscroll' : stringScroll (atCol k st) = (⟨st.1.x, st.2.layout.height - 1⟩,
      (st.2.moveTo { st.2.spot with col := k }).pushUp) := if_pos hy
    rw [hscroll, hscroll', hpush, hpush']
    rfl
  · have hscroll : stringScroll st = st := if_neg hy
    rw [hscroll]
    exact if_neg hy

theorem newline_ne_tab (hline : c = ch '\n') : ¬ c = ch '\t' := by
  rw [hline]
  decide

/-- A character of the text and a newline both set the column. -/
theorem stringLetter_atCol (hc : Plain c ∨ c = ch '\n') (k : Nat) (st : Pen × Screen)
    (fg bg : BitVec 32) : stringLetter fg bg c (atCol k st) = stringLetter fg bg c st := by
  rw [stringLetter, stringLetter]
  by_cases hline : c = ch '\n'
  · have htab := newline_ne_tab hline
    rw [if_neg htab, if_neg htab, if_pos hline, if_pos hline]
    rfl
  · obtain ⟨htab, -, hnul⟩ := hc.resolve_right hline
    rw [if_neg htab, if_neg htab, if_neg hline, if_neg hline, if_neg hnul, if_neg hnul]
    rfl

theorem stringChar_atCol {st : Pen × Screen} (hc : Plain c ∨ c = ch '\n')
    (hcursor : ¬ st.2.layout.cursorEnabled = true) (k : Nat) (fg bg : BitVec 32) :
    stringChar fg bg (atCol k st) c = stringChar fg bg st c := by
  have hlayout : (stringWrap st).2.layout = st.2.layout := (stringWrap_place st).1
  rw [← hlayout] at hcursor
  rw [stringChar, stringChar, stringWrap_atCol, stringScroll_atCol hcursor, stringLetter_atCol hc]

/-- A cell drawn at the pen is drawn over by the text that goes on there. -/
theorem foldl_over {text : List (BitVec 8)} (fg bg f b : BitVec 32) (letter : BitVec 8) :
    ∀ {scr : Screen} {p : Spot}, x < scr.layout.width → y < scr.layout.height →
      p.row = scr.spot.row → GoesOn true text →
      text.foldl (stringChar fg bg) (⟨x, y⟩, (scr.entry f b letter x y).moveTo p) =
        text.foldl (stringChar fg bg) (⟨x, y⟩, scr) := by
  induction text with
  | nil =>
    intro scr p _ _ _ h
    exact h.elim
  | cons c rest ih =>
    intro scr p hx hy hrow h
    have hx' : x < ((scr.entry f b letter x y).moveTo p).layout.width := hx
    have hy' : y < ((scr.entry f b letter x y).moveTo p).layout.height := hy
    rw [List.foldl_cons, List.foldl_cons]
    rcases h with hc | ⟨hline, hrest⟩
    · rw [stringChar_inRow hc hx hy, stringChar_inRow hc hx' hy', entry_over rfl]
      have hsame : (scr.moveTo p).entry fg bg c x y = scr.entry fg bg c x y := by
        have hspot : ({ p with col := x } : Spot) = { scr.spot with col := x } := by
          rw [hrow]
        exact congrArg (Screen.moveTo _) hspot
      exact congrArg (fun next => rest.foldl _ (_, next)) hsame
    · have hgoes : GoesOn true rest := hrest.resolve_left (by decide)
      have htab := newline_ne_tab hline
      have hnext : p.nextRow = scr.spot.nextRow := by
        rw [Spot.nextRow, Spot.nextRow, hrow]
      rw [stringChar_inCell hx hy, stringChar_inCell hx' hy', stringLetter, stringLetter,
        if_neg htab, if_neg htab, if_pos hline, if_pos hline]
      have hover := @ih (scr.moveTo scr.spot.nextRow) p.nextRow hx hy (by rw [hnext]; rfl) hgoes
      exact hover

/-- The cursor behind a text lies in the cell where the next text goes on. -/
theorem foldl_behind {text : List (BitVec 8)} (hgoes : GoesOn scr.layout.cursorEnabled text)
    (hwidth : 0 < scr.layout.width) (hcol : scr.spot.col + 1 ≤ scr.layout.width)
    (hrow : scr.spot.row < scr.layout.height)
    (hcell : scr.layout.cursorEnabled = true → scr.spot.col + 1 + scr.spot.row * scr.layout.width <
      scr.layout.width * scr.layout.height) (fg bg : BitVec 32) :
    text.foldl (stringChar fg bg) (⟨scr.spot.col + 1, scr.spot.row⟩, scr.stepCol.cursorHere) =
      text.foldl (stringChar fg bg) (⟨scr.spot.col + 1, scr.spot.row⟩, scr) := by
  by_cases hcursor : scr.layout.cursorEnabled = true
  · have hdrawn : scr.stepCol.cursorHere = (scr.entry scr.highlight scr.background 0
        (scr.spot.col + 1) scr.spot.row).moveTo scr.stepCol.spot := by
      rw [cursorHere, moveCursor, stepCol_layout, if_pos hcursor]
      rfl
    rw [hcursor] at hgoes
    by_cases hx : scr.spot.col + 1 < scr.layout.width
    · rw [hdrawn]
      exact foldl_over fg bg _ _ _ hx hrow rfl hgoes
    · have hnext : scr.spot.row + 1 < scr.layout.height := by
        have hlt := hcell hcursor
        have hrows : (scr.spot.row + 1) * scr.layout.width < scr.layout.height * scr.layout.width := by
          rw [Nat.add_mul, Nat.one_mul, Nat.mul_comm scr.layout.height]
          omega
        exact Nat.lt_of_mul_lt_mul_right hrows
      have hsame : scr.spot.col + 1 + scr.spot.row * scr.layout.width =
          0 + (scr.spot.row + 1) * scr.layout.width := by
        rw [Nat.add_mul]
        omega
      cases text with
      | nil => exact hgoes.elim
      | cons c rest =>
        -- the pen goes to the next row first, where the cursor already is
        have hfull : scr.layout.width ≤ scr.spot.col + 1 := by omega
        have hlayout : scr.stepCol.cursorHere.layout = scr.layout := by
          rw [cursorHere_layout, stepCol_layout]
        have hwidth' : 0 < scr.stepCol.cursorHere.layout.width := by rwa [hlayout]
        have hfull' : scr.stepCol.cursorHere.layout.width ≤ scr.spot.col + 1 := by rwa [hlayout]
        rw [List.foldl_cons, List.foldl_cons, stringChar_wrapped hwidth hfull,
          stringChar_wrapped hwidth' hfull', hdrawn, ← List.foldl_cons, ← List.foldl_cons]
        have hover := @foldl_over 0 (scr.spot.row + 1) (c :: rest) fg bg scr.highlight
          scr.background 0 (scr.moveTo { scr.spot with row := (scr.spot.row + 1) % 65536 })
          { scr.stepCol.spot with row := (scr.spot.row + 1) % 65536 } hwidth hnext rfl hgoes
        rw [← hover]
        exact congrArg (fun next => (c :: rest).foldl _ (_, next)) (entry_moved hsame ..)
  · have hdrawn : scr.stepCol.cursorHere = scr.moveTo scr.stepCol.spot := by
      rw [cursorHere, moveCursor, stepCol_layout, if_neg hcursor]
      rfl
    cases text with
    | nil => exact hgoes.elim
    | cons c rest =>
      have hc : Plain c ∨ c = ch '\n' := hgoes.imp_right And.left
      rw [List.foldl_cons, List.foldl_cons, hdrawn]
      have hsame := @stringChar_atCol c (⟨scr.spot.col + 1, scr.spot.row⟩, scr) hc hcursor
        (scr.spot.col + 1) fg bg
      exact congrArg (rest.foldl _) hsame

end Screen

/-! ## Plain texts -/

section Plain

variable {l : Layout} {p : Spot} {text : List (BitVec 8)}

/-- Where a plain text ends. -/
theorem plain_stringEntry (hl : l.Sound) (hrow : p.row < l.height) (hcol : p.col ≤ l.width)
    (hplain : ∀ c ∈ text, Plain c) (hne : text ≠ []) :
    ∃ q, (l.stringEntry p text).col + 1 ≤ l.width ∧
      q * l.width + ((l.stringEntry p text).col + 1) = p.col + text.length ∧
      (l.stringEntry p text).row = min l.height (p.row + q) ∧
      (text.foldl l.stringChar (⟨p.col, p.row⟩, p)).1 =
        ⟨(l.stringEntry p text).col + 1, min (l.height - 1) (p.row + q)⟩ := by
  have hstart : Laid l p 0 p.col (⟨p.col, p.row⟩, p) :=
    ⟨rfl, show p.row = _ by omega, show p.row = _ by omega⟩
  obtain ⟨q, x, hlaid, hx, hsum, hlast⟩ := Laid.foldl hl text hplain hstart hcol
  have hx' : (l.stringEntry p text).col + 1 = x := hlast hne
  rw [Nat.zero_mul, Nat.zero_add] at hsum
  rw [hx']
  refine ⟨q, hx, hsum, hlaid.row, ?_⟩
  rw [← hlaid.x, ← hlaid.y]

/-- The rows that a text takes, when it ends on the screen. -/
theorem Layout.HoldsText.rows {q n x : Nat} (h : l.HoldsText p n) (hx : 0 < x)
    (hsum : q * l.width + x = p.col + n) : p.row + q < l.height := by
  have hfit := h.1
  have hlt : (p.row + q) * l.width < l.height * l.width := by
    rw [Nat.add_mul, Nat.mul_comm l.height]
    omega
  exact Nat.lt_of_mul_lt_mul_right hlt

end Plain

namespace Screen

variable {scr : Screen} {a b : List (BitVec 8)} {c : BitVec 8}

/-- Printing a plain text and then going on is printing without a break. -/
theorem stringEntry_autoPrint (hl : scr.layout.Sound) (hrow : scr.spot.row < scr.layout.height)
    (hcol : scr.spot.col ≤ scr.layout.width) (hplain : ∀ c ∈ a, Plain c) (hne : a ≠ [])
    (hfit : scr.layout.HoldsText scr.spot a.length) (hgoes : GoesOn scr.layout.cursorEnabled b)
    (fg bg : BitVec 32) :
    (scr.autoPrint fg bg a).stringEntry fg bg b = scr.stringEntry fg bg (a ++ b) := by
  obtain ⟨q, hx, hsum, hend, hpen⟩ := plain_stringEntry hl hrow hcol hplain hne
  obtain ⟨hlayout, hplace⟩ := foldl_place fg bg a (⟨scr.spot.col, scr.spot.row⟩, scr)
  have hdown := hfit.rows (by omega) hsum
  have hspot := stringEntry_spot scr fg bg a
  generalize hst : a.foldl (stringChar fg bg) (⟨scr.spot.col, scr.spot.row⟩, scr) = st
    at hlayout hplace
  have hlayout' : st.2.layout = scr.layout := hlayout
  have hlast : scr.stringEntry fg bg a = st.2 := by rw [stringEntry, hst]
  rw [hlast] at hspot
  rw [show min scr.layout.height (scr.spot.row + q) = scr.spot.row + q by omega] at hend
  -- the pen is where the next call starts
  have hst1 : st.1 = ⟨st.2.spot.col + 1, st.2.spot.row⟩ := by
    have hfst := congrArg Prod.fst hplace
    rw [show min (scr.layout.height - 1) (scr.spot.row + q) = scr.spot.row + q by omega] at hpen
    rw [hspot, hend]
    exact hfst.trans hpen
  have hwidth := hl.width
  rw [← hlayout'] at hgoes
  have hbehind : b.foldl (stringChar fg bg)
      (⟨st.2.spot.col + 1, st.2.spot.row⟩, st.2.stepCol.cursorHere) =
        b.foldl (stringChar fg bg) st := by
    rw [show st = (⟨st.2.spot.col + 1, st.2.spot.row⟩, st.2) from Prod.ext hst1 rfl]
    refine foldl_behind hgoes ?_ ?_ ?_ ?_ fg bg
    · rw [hlayout']
      omega
    · rw [hlayout', hspot]
      exact hx
    · rw [hlayout', hspot, hend]
      exact hdown
    · rw [hlayout', hspot, hend, Nat.add_mul]
      intro hcursor
      have hlt := hfit.2 hcursor
      omega
  have hnext : (st.2.stepCol.cursorHere).spot = ⟨st.2.spot.row, st.2.spot.col + 1⟩ := by
    rw [cursorHere_spot, stepCol_spot]
  rw [autoPrint, hlast, stringEntry, stringEntry, hnext, List.foldl_append, hst, hbehind]

end Screen

/-! ## The cursor, wherever it is drawn -/

section Cursor

variable {s t u : Machine VgaContext} {scr : Screen}

/-- What `VgaEntry` scrolls before it stores into a cell. -/
def Screen.scrolledFor (scr : Screen) (y : Nat) : Screen :=
  if scr.layout.height ≤ y then scr.pushUp else scr

/-- `VgaEntry` at any position, on the screen or off it. -/
structure Stored (s u : Machine VgaContext) (scr : Screen) (letter color : BitVec 8)
    (x y : BitVec 32) : Prop where
  before : ∃ t, Draws s t (scr.scrolledFor y.toNat) ∧
    u.statics = { t.statics with currentCol := x.setWidth 16 } ∧
    let offset : BitVec 16 := (2 * (x + y * s.statics.screenWidth.setWidth 32)).setWidth 16
    u.mem = write8 (write8 t.mem (phys (s.statics.swappedBuffer + (offset.setWidth 64 + 0))) letter)
      (phys (s.statics.swappedBuffer + (offset.setWidth 64 + 1))) color

theorem vgaEntry_stored (h : Draws s t scr) (hr : Ready s) (fg bg : VgaColorValue)
    (letter : BitVec 8) (x y : BitVec 32) :
    Returns (vgaEntry fg bg letter x y) t fun _ u => Stored s u scr letter
      (((fg <<< 0 ||| bg <<< 4).setWidth 16 : BitVec 16).setWidth 8) x y := by
  have hcheck : t.statics.screenHeight.setWidth 32 ≤ y ↔ scr.layout.height ≤ y.toNat := by
    rw [BitVec.le_def, toNat_le_setWidth, h.height]
  have hbound : loopBound = 2 ^ 64 - 2 + 1 + 1 := rfl
  have hpush : Returns (onlyIf (t.statics.screenHeight.setWidth 32 ≤ y)
      (internalVgaPushUpWith (vgaMoveCursorWith (vgaEntryWithin (2 ^ 64 - 2 + 1))))) t
      fun _ u => Draws s u (scr.scrolledFor y.toNat) := by
    by_cases hle : scr.layout.height ≤ y.toNat
    · rw [onlyIf_pos (hcheck.mpr hle), Screen.scrolledFor, if_pos hle]
      exact internalVgaPushUpWith_draws h hr _
    · rw [onlyIf_neg (fun hc => hle (hcheck.mp hc)), Screen.scrolledFor, if_neg hle, returns_pure]
      exact h
  rw [vgaEntry, hbound, vgaEntryWithin, vgaEntryWith, returns_bind, returns_getStatics]
  apply hpush.bind
  intro _ v hv
  have hwidth : v.statics.screenWidth = s.statics.screenWidth := by
    apply BitVec.eq_of_toNat_eq
    rw [hv.width, hv.layout]
    rfl
  simp only [returns_bind, returns_getStatics, returns_store8, returns_modifyStatics]
  exact ⟨v, hv, rfl, by rw [hwidth, ← hv.buffer]; rfl⟩

theorem write8_congr {m m' : Mem} {x : Nat} (h : m x = m' x) (a : Nat) (v : BitVec 8) :
    write8 m a v x = write8 m' a v x := by
  by_cases hx : x = a
  · rw [hx, write8_same, write8_same]
  · rw [write8_outside (by omega), write8_outside (by omega), h]

/-- The same cell of the same screen, drawn on two machines. -/
theorem Stored.sameText {v : Machine VgaContext} {letter color : BitVec 8} {x y : BitVec 32}
    (h : Stored s u scr letter color x y) (h' : Stored s v scr letter color x y) (hr : Ready s) :
    SameText u v := by
  obtain ⟨t1, h1, hstatics, hmem⟩ := h.before
  obtain ⟨t2, h2, hstatics', hmem'⟩ := h'.before
  have hsame := (h1.sameText_iff h2 hr).mpr ⟨rfl, fun _ _ => rfl⟩
  refine ⟨?_, ?_, fun r c hrow hcol => ?_⟩
  · rw [hstatics, hstatics']
    exact hsame.row
  · rw [hstatics, hstatics']
  · rw [hstatics] at hrow hcol ⊢
    rw [hstatics']
    have hcell : cellAt t1.statics r c = cellAt t2.statics r c := by
      rw [cellAt, cellAt, h1.width, h2.width, h1.buffer, h2.buffer]
    have hbyte := hsame.letters r c hrow hcol
    show u.mem (cellAt t1.statics r c) = v.mem (cellAt t2.statics r c)
    rw [← hcell] at hbyte ⊢
    rw [hmem, hmem']
    exact write8_congr (write8_congr hbyte _ _) _ _

/-- `VgaMoveCursor` to the position of the context. -/
theorem moveCursorHere_stored (h : Draws s t scr) (hr : Ready s)
    (hcursor : scr.layout.cursorEnabled = true) :
    Returns moveCursorHere t fun _ u => Stored s u scr 0
      (((scr.highlight <<< 0 ||| scr.background <<< 4).setWidth 16 : BitVec 16).setWidth 8)
      (BitVec.ofNat 32 scr.spot.col) (BitVec.ofNat 32 scr.spot.row) := by
  have hx : t.statics.currentCol.setWidth 32 = BitVec.ofNat 32 scr.spot.col := by
    rw [← h.col, BitVec.ofNat_toNat]
  have hy : t.statics.currentRow.setWidth 32 = BitVec.ofNat 32 scr.spot.row := by
    rw [← h.row, BitVec.ofNat_toNat]
  rw [moveCursorHere, returns_bind, returns_getStatics, vgaMoveCursor, vgaMoveCursorWith,
    returns_bind, returns_getStatics, h.cursorEnabled, onlyIf_pos hcursor, h.highlight,
    h.background, hx, hy]
  exact vgaEntry_stored h hr _ _ _ _ _

theorem moveCursorHere_sameText {v : Machine VgaContext} (h : Draws s t scr) (h' : Draws s v scr)
    (hr : Ready s) : Returns moveCursorHere t fun _ t' =>
      Returns moveCursorHere v fun _ v' => SameText t' v' := by
  by_cases hcursor : scr.layout.cursorEnabled = true
  · apply (moveCursorHere_stored h hr hcursor).mono
    intro _ t' ht'
    apply (moveCursorHere_stored h' hr hcursor).mono
    intro _ v' hv'
    exact ht'.sameText hv' hr
  · apply (moveCursorHere_draws h hr (fun hc => absurd hc hcursor)).mono
    intro _ t' ht'
    apply (moveCursorHere_draws h' hr (fun hc => absurd hc hcursor)).mono
    intro _ v' hv'
    exact (ht'.sameText_iff hv' hr).mpr ⟨rfl, fun _ _ => rfl⟩

theorem moveCursorHere_col (h : Draws s t scr) (hr : Ready s) :
    Returns moveCursorHere t fun _ u => u.statics.currentCol.toNat = scr.spot.col := by
  by_cases hcursor : scr.layout.cursorEnabled = true
  · apply (moveCursorHere_stored h hr hcursor).mono
    intro _ u hu
    obtain ⟨v, -, hstatics, -⟩ := hu.before
    have hlt : scr.spot.col < 65536 := by
      rw [← h.col]
      exact t.statics.currentCol.isLt
    rw [hstatics]
    show ((BitVec.ofNat 32 scr.spot.col).setWidth 16).toNat = _
    rw [BitVec.toNat_setWidth, BitVec.toNat_ofNat]
    omega
  · apply (moveCursorHere_draws h hr (fun hc => absurd hc hcursor)).mono
    intro _ u hu
    rw [hu.col, Screen.cursorHere_spot]

end Cursor

/-! ## The two ways to print -/

/-- Printing the two parts one after the other and printing the whole at once show the same. -/
def PrintsAlike (s : Machine VgaContext) (fg bg : VgaColorValue) (first second whole : Ptr) :
    Prop :=
  Returns (do vgaAutoPrint fg bg first; vgaAutoPrint fg bg second) s fun _ t =>
    Returns (vgaAutoPrint fg bg whole) s fun _ u => SameText t u

/-- The parts and the whole are in memory. -/
structure Parts (s : Machine VgaContext) (first second whole : Ptr) (a b : List (BitVec 8)) :
    Prop where
  first : Holds s first a
  second : Holds s second b
  whole : Holds s whole (a ++ b)
  short : (a ++ b).length < 2 ^ 32

/-- The first part is plain and ends on the screen, where an empty one takes a cell too. -/
structure PlainFirst (l : Layout) (p : Spot) (a : List (BitVec 8)) : Prop where
  plain : ∀ c ∈ a, Plain c
  fits : l.HoldsText p (max a.length 1)

section Print

variable {s : Machine VgaContext} {fg bg : VgaColorValue} {first second whole : Ptr}
  {a b : List (BitVec 8)}

/-- Where the first part leaves the position. -/
theorem PlainFirst.spot {l : Layout} {p : Spot} (h : PlainFirst l p a) (hl : l.Sound)
    (hrow : p.row < l.height) (hcol : p.col < l.width) :
    (l.stringEntry p a).col + 1 ≤ l.width ∧ (l.stringEntry p a).row < l.height ∧
      (l.cursorEnabled = true →
        (l.stringEntry p a).col + 1 + (l.stringEntry p a).row * l.width < l.width * l.height) := by
  by_cases hne : a = []
  · have hfit := h.fits
    subst hne
    exact ⟨hcol, hrow, hfit.2⟩
  · have hlen := List.length_pos_iff.mpr hne
    have hfit := h.fits
    rw [show max a.length 1 = a.length by omega] at hfit
    obtain ⟨q, hx, hsum, hend, -⟩ := plain_stringEntry hl hrow (Nat.le_of_lt hcol) h.plain hne
    have hdown := hfit.rows (by omega) hsum
    refine ⟨hx, by omega, fun hcursor => ?_⟩
    have hlt := hfit.2 hcursor
    rw [hend, show min l.height (p.row + q) = p.row + q by omega, Nat.add_mul]
    omega

theorem Parts.first_short (h : Parts s first second whole a b) : a.length < 2 ^ 32 := by
  have hshort := h.short
  rw [List.length_append] at hshort
  omega

theorem Parts.second_short (h : Parts s first second whole a b) : b.length < 2 ^ 32 := by
  have hshort := h.short
  rw [List.length_append] at hshort
  omega

/-- The second part starts one column on. -/
theorem first_spot (s : Machine VgaContext) (fg bg : VgaColorValue) (a : List (BitVec 8)) :
    ((shown s).autoPrint fg bg a).spot =
      ⟨(s.statics.layout.stringEntry s.statics.spot a).row,
        (s.statics.layout.stringEntry s.statics.spot a).col + 1⟩ := by
  rw [Screen.autoPrint, Screen.cursorHere_spot, Screen.stepCol_spot, Screen.stringEntry_spot]
  rfl

variable (hr : Ready s) (hrow : s.statics.spot.row < s.statics.layout.height)
  (hcol : s.statics.spot.col < s.statics.layout.width)
  (hparts : Parts s first second whole a b) (hplain : PlainFirst s.statics.layout s.statics.spot a)
include hr hrow hcol hparts hplain

theorem first_draws : Returns (vgaAutoPrint fg bg first) s fun _ t =>
    Draws s t ((shown s).autoPrint fg bg a) := by
  obtain ⟨-, hend, hcell⟩ := hplain.spot hr.sound hrow hcol
  have hprinted := autoPrinted_eq hparts.first_short
  have hdraws := vgaAutoPrint_draws (Draws.refl s) hr hparts.first (Nat.le_of_lt hcol) fg bg
    (by rw [hprinted]; exact fun hc => ⟨hend, hcell hc⟩)
  rw [hprinted] at hdraws
  exact hdraws

theorem second_text {t : Machine VgaContext} (h : Draws s t ((shown s).autoPrint fg bg a))
    {Q : Unit → Machine VgaContext → Prop}
    (hQ : ∀ u, Draws s u (((shown s).autoPrint fg bg a).stringEntry fg bg b).stepCol →
      Returns moveCursorHere u Q) : Returns (vgaAutoPrint fg bg second) t Q := by
  obtain ⟨hx, -, -⟩ := hplain.spot hr.sound hrow hcol
  refine vgaAutoPrint_text h hr hparts.second ?_ fg bg ?_
  · rw [first_spot, h.layout]
    exact hx
  · rw [autoPrinted_eq hparts.second_short]
    exact hQ

omit hrow hplain in
theorem whole_text {Q : Unit → Machine VgaContext → Prop}
    (hQ : ∀ u, Draws s u ((shown s).stringEntry fg bg (a ++ b)).stepCol →
      Returns moveCursorHere u Q) : Returns (vgaAutoPrint fg bg whole) s Q := by
  refine vgaAutoPrint_text (Draws.refl s) hr hparts.whole (Nat.le_of_lt hcol) fg bg ?_
  rw [autoPrinted_eq hparts.short]
  exact hQ

/-- The second part goes on where the first one ended. -/
theorem printsAlike_of_goesOn (hne : a ≠ []) (hgoes : GoesOn s.statics.layout.cursorEnabled b) :
    PrintsAlike s fg bg first second whole := by
  have hlen := List.length_pos_iff.mpr hne
  have hfit := hplain.fits
  rw [show max a.length 1 = a.length by omega] at hfit
  rw [PrintsAlike, returns_bind]
  apply (first_draws hr hrow hcol hparts hplain).mono
  intro _ t1 h1
  refine second_text hr hrow hcol hparts hplain h1 fun u hu => ?_
  have hsame := @Screen.stringEntry_autoPrint (shown s) a b hr.sound hrow
    (Nat.le_of_lt hcol) hplain.plain hne hfit hgoes fg bg
  rw [hsame] at hu
  obtain ⟨_, t, ht, -⟩ := moveCursorHere_col hu hr
  refine returns_of_eq ht (whole_text hr hcol hparts fun v hv => ?_)
  exact (moveCursorHere_sameText hu hv hr).of_eq ht

/-- If both ways end in the same column, so do the strings. -/
theorem col_of_printsAlike (h : PrintsAlike s fg bg first second whole) :
    (s.statics.layout.stringEntry ⟨(s.statics.layout.stringEntry s.statics.spot a).row,
      (s.statics.layout.stringEntry s.statics.spot a).col + 1⟩ b).col =
      (s.statics.layout.stringEntry s.statics.spot (a ++ b)).col := by
  rw [PrintsAlike, returns_bind] at h
  have hfirst : Returns (vgaAutoPrint fg bg first) s fun _ t =>
      Draws s t ((shown s).autoPrint fg bg a) := first_draws hr hrow hcol hparts hplain
  obtain ⟨_, t1, ht1, h1⟩ := hfirst
  have hsecond := second_text hr hrow hcol hparts hplain h1 fun u hu => moveCursorHere_col hu hr
  obtain ⟨_, t, ht, htcol⟩ := hsecond
  have hwhole : Returns (vgaAutoPrint fg bg whole) s _ :=
    whole_text hr hcol hparts fun u hu => moveCursorHere_col hu hr
  obtain ⟨_, v, hv, hvcol⟩ := hwhole
  have hsame := ((h.of_eq ht1).of_eq ht).of_eq hv
  rw [Screen.stepCol_spot, Screen.stringEntry_spot] at htcol hvcol
  rw [first_spot, h1.layout] at htcol
  rw [hsame.col, hvcol] at htcol
  have heq := Nat.succ.inj htcol
  exact heq.symm

/-- An empty part takes a column of its own. -/
theorem not_printsAlike_of_empty (hplain' : ∀ c ∈ b, Plain c) (hempty : a = [] ∨ b = []) :
    ¬ PrintsAlike s fg bg first second whole := by
  intro h
  have hsame := col_of_printsAlike hr hrow hcol hparts hplain h
  by_cases hb : b = []
  · rw [hb, List.append_nil] at hsame
    exact absurd hsame (Nat.succ_ne_self _)
  · have ha : a = [] := hempty.resolve_right hb
    have hwidth := hr.sound.width
    rw [ha] at hsame
    obtain ⟨q, hx, hsum, -, -⟩ := plain_stringEntry hr.sound hrow (Nat.le_of_lt hcol) hplain' hb
    obtain ⟨q', hx', hsum', -, -⟩ :=
      @plain_stringEntry _ ⟨s.statics.spot.row, s.statics.spot.col + 1⟩ _ hr.sound hrow hcol
        hplain' hb
    have hsame' : (s.statics.layout.stringEntry
        ⟨s.statics.spot.row, s.statics.spot.col + 1⟩ b).col =
          (s.statics.layout.stringEntry s.statics.spot b).col := hsame
    rw [hsame'] at hsum' hx'
    -- the two ends are one cell apart, and so not in the same column
    have hone : q' * s.statics.layout.width = q * s.statics.layout.width + 1 := by
      have hstart : (⟨s.statics.spot.row, s.statics.spot.col + 1⟩ : Spot).col =
        s.statics.spot.col + 1 := rfl
      omega
    have hmod := congrArg (· % s.statics.layout.width) hone
    simp only [Nat.mul_mod_left, Nat.mul_add_mod_self_right] at hmod
    rw [Nat.mod_eq_of_lt (by omega)] at hmod
    exact absurd hmod (by decide)

/-- Where the first part is plain and ends on the screen, the two ways show the same if it is not
empty and the second one goes on there, and for plain strings only then. -/
theorem vgaAutoPrint_split :
    ((a ≠ [] ∧ GoesOn s.statics.layout.cursorEnabled b) →
      PrintsAlike s fg bg first second whole) ∧
    ((∀ c ∈ b, Plain c) → (PrintsAlike s fg bg first second whole ↔ a ≠ [] ∧ b ≠ [])) := by
  refine ⟨fun h => printsAlike_of_goesOn hr hrow hcol hparts hplain h.1 h.2, fun hplain' => ?_⟩
  constructor
  · intro h
    by_contra hempty
    rw [not_and_or, not_not, not_not] at hempty
    exact not_printsAlike_of_empty hr hrow hcol hparts hplain hplain' hempty h
  · rintro ⟨ha, hb⟩
    obtain ⟨c, rest, rfl⟩ := List.exists_cons_of_ne_nil hb
    exact printsAlike_of_goesOn hr hrow hcol hparts hplain ha
      (Or.inl (hplain' c List.mem_cons_self))

end Print

/-- The string `"a"` at `0x1000`, and so the empty string behind it. -/
def printingMachine : Machine VgaContext :=
  { typingMachine with mem := block (fun _ => 0) (phys 0x1000) (chars "a" ++ [0]) }

theorem printingMachine_ready : Ready printingMachine :=
  ⟨typingMachine_ready.sound, typingMachine_ready.spans, typingMachine_ready.nonnull⟩

theorem printingMachine_parts : Parts printingMachine 0x1000 0x1001 0x1000 (chars "a") [] := by
  have hstring : CString printingMachine.mem 0x1000 (chars "a") :=
    cstring_block (by decide) (by unfold Spans; decide) (by decide)
  have hempty : CString printingMachine.mem 0x1001 [] :=
    ⟨by decide, by decide, by decide, by decide⟩
  have hfirst : Holds printingMachine 0x1000 (chars "a") := ⟨hstring, by decide⟩
  exact ⟨hfirst, ⟨hempty, by decide⟩, hfirst, by decide⟩

theorem printingMachine_plain : PlainFirst printingMachine.statics.layout
    printingMachine.statics.spot (chars "a") :=
  ⟨by unfold Plain; decide, by decide, by decide⟩

/-- The string `"Feral"` at `0x1000`, with `"ral"` in it, and the string `"Fe"` behind it. -/
def splitMachine : Machine VgaContext :=
  { typingMachine with
    mem := block (fun _ => 0) (phys 0x1000) (chars "Feral" ++ [0] ++ chars "Fe" ++ [0]) }

theorem splitMachine_parts :
    Parts splitMachine 0x1006 0x1002 0x1000 (chars "Fe") (chars "ral") := by
  have hfirst : CString splitMachine.mem 0x1006 (chars "Fe") :=
    ⟨by decide, by decide, by decide, by decide⟩
  have hsecond : CString splitMachine.mem 0x1002 (chars "ral") :=
    ⟨by decide, by decide, by decide, by decide⟩
  have hwhole : CString splitMachine.mem 0x1000 (chars "Fe" ++ chars "ral") :=
    ⟨by decide, by decide, by decide, by decide⟩
  exact ⟨⟨hfirst, by decide⟩, ⟨hsecond, by decide⟩, ⟨hwhole, by decide⟩, by decide⟩

theorem vgaAutoPrint_split_printing :
    PrintsAlike splitMachine vgaWhite vgaBlack 0x1006 0x1002 0x1000 ∧
      (PrintsAlike splitMachine vgaWhite vgaBlack 0x1006 0x1002 0x1000 ↔
        chars "Fe" ≠ [] ∧ chars "ral" ≠ []) := by
  have hready : Ready splitMachine :=
    ⟨typingMachine_ready.sound, typingMachine_ready.spans, typingMachine_ready.nonnull⟩
  have hplain : PlainFirst splitMachine.statics.layout splitMachine.statics.spot (chars "Fe") :=
    ⟨by unfold Plain; decide, by decide, by decide⟩
  have hplain' : ∀ c ∈ chars "ral", Plain c := by
    unfold Plain
    decide
  have hgoes : GoesOn true (chars "ral") := Or.inl (hplain' (ch 'r') (by decide))
  obtain ⟨hsplit, hiff⟩ := @vgaAutoPrint_split splitMachine vgaWhite vgaBlack _ _ _ _ _ hready
    (by decide) (by decide) splitMachine_parts hplain
  exact ⟨hsplit ⟨by decide, hgoes⟩, hiff hplain'⟩

/-- An empty string behind a letter. -/
theorem letter_then_nothing :
    ¬ PrintsAlike printingMachine vgaWhite vgaBlack 0x1000 0x1001 0x1000 :=
  not_printsAlike_of_empty printingMachine_ready (by decide) (by decide) printingMachine_parts
    printingMachine_plain (fun _ hc => absurd hc List.not_mem_nil) (Or.inr rfl)

end FeralKernel
