import FeralKernel.Console.DrawString

/-!
# Any sequence of console calls

A run of the console is any sequence of calls, with other code running in between.
The position stays on the screen and every store stays inside it, in every run
whose calls of `VgaAutoPrint` fit.  The others check the position themselves.
`VgaAutoPrint` moves one column on and draws the cursor there, and looks at
neither the right margin nor the bottom of the screen.
-/

namespace FeralKernel

open Verif.Program Verif.Bytes

inductive VgaCall where
  | putChar (letter : BitVec 8)
  | autoEntry (foreground background : VgaColorValue) (letter : BitVec 8)
  | println (foreground background : VgaColorValue) (string : Ptr) (length : BitVec 32)
  | autoPrint (foreground background : VgaColorValue) (string : Ptr)
  | autoPrintln (foreground background : VgaColorValue) (string : Ptr)
  | backspace

/-- The position that a string leaves has a column behind it, and the cell there is
on the screen if the cursor is drawn in it. -/
def Layout.Fits (l : Layout) (p : Spot) (text : List (BitVec 8)) : Prop :=
  let q := l.stringEntry p (autoPrinted text)
  q.row < l.height ∧ q.col < l.width ∧
    (l.cursorEnabled = true → q.col + 1 + q.row * l.width < l.width * l.height)

instance (l : Layout) (p : Spot) (text : List (BitVec 8)) : Decidable (l.Fits p text) :=
  inferInstanceAs (Decidable (_ ∧ _ ∧ (_ → _)))

namespace VgaCall

def run : VgaCall → Kern VgaContext Unit
  | putChar letter => vgaPutChar letter
  | autoEntry foreground background letter => vgaAutoEntry foreground background letter
  | println foreground background string length => vgaPrintln foreground background string length
  | autoPrint foreground background string => vgaAutoPrint foreground background string
  | autoPrintln foreground background string => vgaAutoPrintln foreground background string
  | backspace => internalVgaBackspace

/-- The string of the call is there. -/
def Supplied (t : Machine VgaContext) : VgaCall → Prop
  | println _ _ string _ => ∃ text, Holds t string text
  | autoPrint _ _ string => ∃ text, Holds t string text
  | autoPrintln _ _ string => ∃ text, Holds t string text
  | _ => True

def Fits (t : Machine VgaContext) : VgaCall → Prop
  | autoPrint _ _ string => ∀ text, CString t.mem string text →
      t.statics.layout.Fits t.statics.spot text
  | _ => True

end VgaCall

/-- The states between the calls of a run in which every call fits. -/
inductive Reached (s : Machine VgaContext) : Machine VgaContext → Prop where
  | start : Reached s s
  /-- Other code changes memory. -/
  | elsewhere {t u : Machine VgaContext} (h : Reached s t) (hstatics : u.statics = t.statics)
      (hlog : u.log = t.log) : Reached s u
  | call {t u : Machine VgaContext} {c : VgaCall} (h : Reached s t) (hsupplied : c.Supplied t)
      (hfits : c.Fits t) (hrun : c.run t = .ok ((), u)) : Reached s u

/-- The screen of the console is where it was. -/
structure SameScreen (t u : Machine VgaContext) : Prop where
  buffer : u.statics.swappedBuffer = t.statics.swappedBuffer
  layout : u.statics.layout = t.statics.layout

theorem SameScreen.trans {s t u : Machine VgaContext} (h : SameScreen s t) (h' : SameScreen t u) :
    SameScreen s u := ⟨h'.buffer.trans h.buffer, h'.layout.trans h.layout⟩

theorem Draws.sameScreen {s t : Machine VgaContext} {scr : Screen} (h : Draws s t scr) :
    SameScreen s t := ⟨h.buffer, h.statics_layout.trans h.layout⟩

/-- From `s` to `t` every store was inside the screen, and the position is on it. -/
structure Inside (s t : Machine VgaContext) : Prop where
  spot : OnScreen t.statics.layout t.statics.spot
  stores : Records (StoresInside t.statics) s t

section Calls

variable {s t u : Machine VgaContext} {scr : Screen}

theorem StoresInside.congr {e : Event} (h : StoresInside s.statics e) (hsame : SameScreen s t) :
    StoresInside t.statics e := by
  rw [StoresInside, VgaContext.screenBytes, hsame.buffer, hsame.layout]
  exact h

theorem Draws.inside (h : Draws s t scr) (hspot : OnScreen scr.layout scr.spot) : Inside s t := by
  refine ⟨?_, ?_⟩
  · rw [h.statics_layout, h.spot]
    exact hspot
  · refine h.records.mono ?_
    intro e he
    exact he.congr h.sameScreen

/-- Every call but `VgaAutoPrint` leaves the position on the screen. -/
theorem println_onScreen (hl : scr.layout.Sound) (fg bg : BitVec 32) (text : List (BitVec 8)) :
    OnScreen (scr.println fg bg text).layout (scr.println fg bg text).spot := by
  unfold Screen.println
  dsimp only
  rw [Screen.cursorHere_layout, Screen.settle_layout, Screen.moveTo_layout,
    Screen.stringEntry_layout, Screen.cursorHere_spot, Screen.settle_spot, Screen.moveTo_layout,
    Screen.stringEntry_layout, Screen.moveTo_spot]
  exact ⟨Layout.settle_row_lt hl, Nat.le_trans Layout.settle_col_le (Nat.zero_le _)⟩

theorem backspace_onScreen (hl : scr.layout.Sound) (hspot : OnScreen scr.layout scr.spot) :
    OnScreen scr.backspace.layout scr.backspace.spot := by
  unfold Screen.backspace
  split
  · exact hspot
  · dsimp only
    rw [Screen.moveCursor_layout, Screen.putChar_layout, Screen.moveCursor_layout,
      Screen.moveCursor_spot, Screen.putChar_layout, Screen.moveCursor_layout, Screen.putChar_spot,
      Screen.moveCursor_layout]
    have hput := Layout.putChar_onScreen (p := (scr.moveCursor (scr.spot.col - 1)
      scr.spot.row).spot) hl
    have hcol := hspot.col
    split
    · exact ⟨hput.row, show scr.spot.col - 1 ≤ scr.layout.width by omega⟩
    · exact hput

/-! ## A cell that may lie outside the screen -/

/-- What is known of `VgaEntry` at any position: a row below the screen scrolls it
first. -/
structure Entered (t u : Machine VgaContext) (x y : BitVec 32) : Prop where
  same : SameScreen t u
  row : u.statics.currentRow = t.statics.currentRow
  col : u.statics.currentCol = x.setWidth 16
  stored : y.toNat < t.statics.layout.height → ∃ e, u.log = e :: .write (t.statics.swappedBuffer +
    (((2 * (x + y * t.statics.screenWidth.setWidth 32)).setWidth 16 : BitVec 16).setWidth 64 + 0)) 1
      :: t.log

theorem vgaEntry_entered (h : Draws s t scr) (hr : Ready s) (fg bg : VgaColorValue)
    (letter : BitVec 8) (x y : BitVec 32) :
    Returns (vgaEntry fg bg letter x y) t fun _ u => Entered t u x y := by
  have hcheck : t.statics.screenHeight.setWidth 32 ≤ y ↔ t.statics.layout.height ≤ y.toNat := by
    rw [BitVec.le_def, toNat_le_setWidth]
    rfl
  have hbound : loopBound = 2 ^ 64 - 2 + 1 + 1 := rfl
  rw [vgaEntry, hbound, vgaEntryWithin, vgaEntryWith, returns_bind, returns_getStatics]
  by_cases hle : t.statics.layout.height ≤ y.toNat
  · rw [onlyIf_pos (hcheck.mpr hle)]
    apply (internalVgaPushUpWith_draws h hr _).bind
    intro _ v hv
    simp only [returns_bind, returns_getStatics, returns_store8, returns_modifyStatics]
    have hlayout : v.statics.layout = t.statics.layout := by
      rw [hv.statics_layout, Screen.pushUp_layout, h.statics_layout]
    have hrow : v.statics.currentRow = t.statics.currentRow := by
      apply BitVec.eq_of_toNat_eq
      rw [hv.row, Screen.pushUp_spot, Layout.pushUp_row, h.row]
    exact ⟨⟨hv.buffer.trans h.buffer.symm, hlayout⟩, hrow, rfl, fun hlt => absurd hle (by omega)⟩
  · rw [onlyIf_neg (fun hc => hle (hcheck.mp hc)), returns_bind, returns_pure]
    simp only [returns_bind, returns_getStatics, returns_store8, returns_modifyStatics]
    exact ⟨⟨rfl, rfl⟩, rfl, rfl, fun _ => ⟨_, rfl⟩⟩

/-- A cell behind the last one is stored outside the screen. -/
theorem Entered.not_inside {x y : BitVec 32} (h : Draws s t scr) (hr : Ready s)
    (he : Entered t u x y) (hy : y.toNat < scr.layout.height)
    (hcell : x.toNat + y.toNat * scr.layout.width = scr.layout.width * scr.layout.height) :
    ¬ Inside s u := by
  intro hin
  have hl := h.sound hr
  have hsmall := hl.cells_small
  obtain ⟨e, hlog⟩ := he.stored (by rw [h.statics_layout]; exact hy)
  have hoff : ((2 * (x + y * t.statics.screenWidth.setWidth 32)).setWidth 16 : BitVec 16).toNat =
      2 * (scr.layout.width * scr.layout.height) := by
    rw [BitVec.toNat_setWidth, BitVec.toNat_mul, BitVec.toNat_add, BitVec.toNat_mul,
      toNat_le_setWidth, h.width, show (2 : BitVec 32).toNat = 2 from rfl]
    generalize y.toNat * scr.layout.width = z at hcell ⊢
    omega
  obtain ⟨new, hnew, hall⟩ := hin.stores
  obtain ⟨old, hold, -⟩ := h.records
  have hmem : Event.write (t.statics.swappedBuffer +
      (((2 * (x + y * t.statics.screenWidth.setWidth 32)).setWidth 16 : BitVec 16).setWidth 64 + 0))
      1 ∈ new := by
    rw [hold, ← List.cons_append, ← List.cons_append, hnew] at hlog
    rw [List.append_cancel_right hlog]
    exact List.mem_cons_of_mem _ List.mem_cons_self
  obtain ⟨k, hk, ha⟩ := hall _ hmem
  rw [he.same.buffer, BitVec.add_right_inj] at ha
  have hnat := congrArg BitVec.toNat ha
  rw [BitVec.toNat_add, BitVec.toNat_setWidth, hoff, BitVec.toNat_ofNat,
    show (0 : BitVec 64).toNat = 0 from rfl] at hnat
  have hbytes : u.statics.screenBytes = 2 * (scr.layout.width * scr.layout.height) := by
    rw [VgaContext.screenBytes, he.same.layout, h.statics_layout]
  omega

/-- Drawing the cursor at the position of the context, wherever that is. -/
theorem moveCursorHere_inside (h : Draws s t scr) (hr : Ready s) :
    Returns moveCursorHere t fun _ u => SameScreen s u ∧ (Inside s u ↔
      (scr.spot.row < scr.layout.height ∧ scr.spot.col ≤ scr.layout.width ∧
        (scr.layout.cursorEnabled = true → scr.spot.col + scr.spot.row * scr.layout.width <
          scr.layout.width * scr.layout.height))) := by
  by_cases hcond : scr.spot.row < scr.layout.height ∧ scr.spot.col ≤ scr.layout.width ∧
      (scr.layout.cursorEnabled = true →
        scr.spot.col + scr.spot.row * scr.layout.width < scr.layout.width * scr.layout.height)
  · apply (moveCursorHere_draws h hr (fun hc => ⟨hcond.1, hcond.2.2 hc⟩)).mono
    intro _ u hu
    refine ⟨hu.sameScreen, fun _ => hcond, fun _ => hu.inside ?_⟩
    rw [Screen.cursorHere_layout, Screen.cursorHere_spot]
    exact ⟨hcond.1, hcond.2.1⟩
  · rw [moveCursorHere, returns_bind, returns_getStatics, vgaMoveCursor, vgaMoveCursorWith,
      returns_bind, returns_getStatics, h.cursorEnabled]
    by_cases hcursor : scr.layout.cursorEnabled = true
    · rw [onlyIf_pos hcursor]
      apply (vgaEntry_entered h hr _ _ _ _ _).mono
      intro _ u hu
      refine ⟨h.sameScreen.trans hu.same, fun hin => ?_, fun hc => absurd hc hcond⟩
      have hrow := hin.spot.row
      have hcol := hin.spot.col
      rw [hu.same.layout, h.statics_layout] at hrow hcol
      have hrow' : scr.spot.row < scr.layout.height := by
        rw [← h.row, ← hu.row]
        exact hrow
      have hcol' : scr.spot.col ≤ scr.layout.width := by
        have heq : u.statics.currentCol.toNat = scr.spot.col := by
          rw [hu.col, BitVec.setWidth_setWidth_of_le _ (by decide), BitVec.setWidth_eq, h.col]
        rw [← heq]
        exact hcol
      refine absurd hin (hu.not_inside h hr ?_ ?_)
      · rw [toNat_le_setWidth, h.row]
        exact hrow'
      · have hfar : ¬ scr.spot.col + scr.spot.row * scr.layout.width <
            scr.layout.width * scr.layout.height := by
          intro hlt
          exact hcond ⟨hrow', hcol', fun _ => hlt⟩
        have hrows : (scr.spot.row + 1) * scr.layout.width ≤ scr.layout.height * scr.layout.width :=
          Nat.mul_le_mul_right _ hrow'
        rw [Nat.add_mul, Nat.one_mul, Nat.mul_comm scr.layout.height] at hrows
        rw [toNat_le_setWidth, toNat_le_setWidth, h.row, h.col]
        omega
    · rw [onlyIf_neg hcursor, returns_pure]
      refine ⟨h.sameScreen, fun hin => absurd ?_ hcond, fun hc => absurd hc hcond⟩
      have hspot := hin.spot
      rw [h.statics_layout, h.spot] at hspot
      exact ⟨hspot.row, hspot.col, fun hc => absurd hc hcursor⟩

/-! ## Calls -/

theorem VgaCall.run_draws (hr : Ready t) (hspot : OnScreen t.statics.layout t.statics.spot)
    {c : VgaCall} (hs : c.Supplied t) (hf : c.Fits t) :
    Returns c.run t fun _ u => ∃ scr, Draws t u scr ∧ OnScreen scr.layout scr.spot := by
  have hl := hr.sound
  have hstart := Draws.refl t
  cases c with
  | putChar letter =>
    apply (vgaPutChar_draws hstart hr letter).mono
    intro _ u hu
    refine ⟨_, hu, ?_⟩
    rw [Screen.putChar_layout, Screen.putChar_spot]
    exact Layout.putChar_onScreen hl
  | autoEntry fg bg letter =>
    apply (vgaAutoEntry_draws hstart hr fg bg letter).mono
    intro _ u hu
    refine ⟨_, hu, ?_⟩
    rw [Screen.autoEntry_layout, Screen.autoEntry_spot]
    exact Layout.autoEntry_onScreen hl
  | println fg bg string length =>
    obtain ⟨text, htext⟩ := hs
    apply (vgaPrintln_draws hstart hr htext hspot.col fg bg length).mono
    intro _ u hu
    exact ⟨_, hu, println_onScreen hl fg bg _⟩
  | autoPrint fg bg string =>
    obtain ⟨text, htext⟩ := hs
    obtain ⟨hrow, hcol, hcell⟩ := hf text htext.bytes
    apply (vgaAutoPrint_draws hstart hr htext hspot.col fg bg (fun hc => ⟨hrow, hcell hc⟩)).mono
    intro _ u hu
    refine ⟨_, hu, ?_⟩
    rw [Screen.autoPrint, Screen.cursorHere_layout, Screen.cursorHere_spot, Screen.stepCol_layout,
      Screen.stepCol_spot, Screen.stringEntry_layout, Screen.stringEntry_spot]
    exact ⟨hrow, hcol⟩
  | autoPrintln fg bg string =>
    obtain ⟨text, htext⟩ := hs
    apply (vgaAutoPrintln_draws hstart hr htext hspot.col fg bg).mono
    intro _ u hu
    exact ⟨_, hu, println_onScreen hl fg bg _⟩
  | backspace =>
    apply (internalVgaBackspace_draws hstart hr hspot).mono
    intro _ u hu
    exact ⟨_, hu, backspace_onScreen hl hspot⟩

/-- A call of `VgaAutoPrint` that does not fit. -/
theorem vgaAutoPrint_not_inside (hr : Ready t) (hspot : OnScreen t.statics.layout t.statics.spot)
    {string : Ptr} {text : List (BitVec 8)} (htext : Holds t string text)
    (hf : ¬ t.statics.layout.Fits t.statics.spot text) (fg bg : VgaColorValue) :
    Returns (vgaAutoPrint fg bg string) t fun _ u => SameScreen t u ∧ ¬ Inside t u := by
  refine vgaAutoPrint_text (Draws.refl t) hr htext hspot.col fg bg ?_
  intro u hu
  apply (moveCursorHere_inside hu hr).mono
  intro _ v hv
  refine ⟨hv.1, fun hin => ?_⟩
  have hcond := hv.2.mp hin
  rw [Screen.stepCol_layout, Screen.stepCol_spot, Screen.stringEntry_layout,
    Screen.stringEntry_spot] at hcond
  exact hf hcond

/-- A call returns, and it keeps the position and its stores on the screen exactly
when it fits. -/
theorem VgaCall.run_inside (hr : Ready t) (hspot : OnScreen t.statics.layout t.statics.spot)
    {c : VgaCall} (hs : c.Supplied t) :
    Returns c.run t fun _ u => SameScreen t u ∧ (Inside t u ↔ c.Fits t) := by
  by_cases hf : c.Fits t
  · apply (c.run_draws hr hspot hs hf).mono
    intro _ u hu
    obtain ⟨scr, hdraws, hon⟩ := hu
    exact ⟨hdraws.sameScreen, fun _ => hf, fun _ => hdraws.inside hon⟩
  · cases c with
    | autoPrint fg bg string =>
      obtain ⟨text, htext⟩ := hs
      have hf' : ¬ t.statics.layout.Fits t.statics.spot text := by
        intro hfits
        refine hf (fun text' htext' => ?_)
        rw [htext'.unique htext.bytes]
        exact hfits
      apply (vgaAutoPrint_not_inside hr hspot htext hf' fg bg).mono
      intro _ u hu
      exact ⟨hu.1, fun hin => absurd hin hu.2, fun hc => absurd hc hf⟩
    | putChar letter => exact absurd trivial hf
    | autoEntry fg bg letter => exact absurd trivial hf
    | println fg bg string length => exact absurd trivial hf
    | autoPrintln fg bg string => exact absurd trivial hf
    | backspace => exact absurd trivial hf

/-! ## Runs -/

/-- A state of a console whose screen is at `b`. -/
structure Running (b : Ptr) (l : Layout) (s t : Machine VgaContext) : Prop where
  buffer : t.statics.swappedBuffer = b
  layout : t.statics.layout = l
  inside : Inside s t

/-- `Inside`, in terms of the place and the size of the screen. -/
theorem inside_iff {b : Ptr} {l : Layout} (hbuffer : t.statics.swappedBuffer = b)
    (hlayout : t.statics.layout = l) :
    Inside s t ↔ t.statics.currentRow.toNat < l.height ∧ t.statics.currentCol.toNat ≤ l.width ∧
      Records (StoresBelow b (2 * l.width * l.height)) s t := by
  have hstores : StoresInside t.statics = StoresBelow b (2 * l.width * l.height) := by
    rw [StoresInside, VgaContext.screenBytes, hbuffer, hlayout, Nat.mul_assoc]
  constructor
  · intro h
    have hspot := h.spot
    have hrec := h.stores
    rw [hlayout] at hspot
    rw [hstores] at hrec
    exact ⟨hspot.row, hspot.col, hrec⟩
  · intro h
    refine ⟨?_, ?_⟩
    · rw [hlayout]
      exact ⟨h.1, h.2.1⟩
    · rw [hstores]
      exact h.2.2

theorem Running.ready {b : Ptr} {l : Layout} (h : Running b l s t) (hl : l.Sound)
    (hspans : Spans b (2 * (l.width * l.height))) (hb : b ≠ 0) : Ready t := by
  refine ⟨?_, ?_, ?_⟩
  · rw [h.layout]
    exact hl
  · rw [VgaContext.screenBytes, h.layout, h.buffer]
    exact hspans
  · rw [h.buffer]
    exact hb

theorem Inside.trans (h : Inside s t) (h' : Inside t u) (hsame : SameScreen t u) : Inside s u := by
  refine ⟨h'.spot, (h.stores.mono ?_).trans h'.stores⟩
  intro e he
  exact he.congr hsame

theorem Reached.running {b : Ptr} {l : Layout} (hl : l.Sound)
    (hspans : Spans b (2 * (l.width * l.height))) (hb : b ≠ 0) {s₀ : Machine VgaContext}
    (hstart : Running b l s s₀) (h : Reached s₀ t) : Running b l s t := by
  induction h with
  | start => exact hstart
  | @elsewhere t u _ hstatics hlog ih =>
    refine ⟨?_, ?_, ?_, ?_⟩
    · rw [hstatics]
      exact ih.buffer
    · rw [hstatics]
      exact ih.layout
    · rw [hstatics]
      exact ih.inside.spot
    · rw [hstatics]
      obtain ⟨new, hnew, hall⟩ := ih.inside.stores
      exact ⟨new, hlog.trans hnew, hall⟩
  | @call t u c _ hsupplied hfits hrun ih =>
    have hcall := c.run_draws (ih.ready hl hspans hb) ih.inside.spot hsupplied hfits
    obtain ⟨scr, hdraws, hon⟩ := hcall.of_eq hrun
    have hsame := hdraws.sameScreen
    exact ⟨hsame.buffer.trans ih.buffer, hsame.layout.trans ih.layout,
      ih.inside.trans (hdraws.inside hon) hsame⟩

end Calls

/-! ## What fits -/

/-- A character that takes a cell. -/
def Plain (c : BitVec 8) : Prop := c ≠ ch '\t' ∧ c ≠ ch '\n' ∧ c ≠ 0

section Plain

variable {l : Layout} {p : Spot} {st : Pen × Spot} {q x : Nat}

/-- A plain text laid out from `p` on, `q` rows further down at column `x`. -/
structure Laid (l : Layout) (p : Spot) (q x : Nat) (st : Pen × Spot) : Prop where
  x : st.1.x = x
  y : st.1.y = min (l.height - 1) (p.row + q)
  row : st.2.row = min l.height (p.row + q)

theorem Laid.stringChar (hl : l.Sound) (h : Laid l p q x st) (hx : x ≤ l.width) {c : BitVec 8}
    (hc : Plain c) :
    (l.stringChar st c).2.col + 1 = (l.stringChar st c).1.x ∧
      ((x < l.width ∧ Laid l p q (x + 1) (l.stringChar st c)) ∨
        (x = l.width ∧ Laid l p (q + 1) 1 (l.stringChar st c))) := by
  have hheight := hl.height
  have hsmall := hl.cells_small
  have hle := hl.height_le
  have hhx := h.x
  have hhy := h.y
  have hrow := h.row
  obtain ⟨htab, hline, hnul⟩ := hc
  rw [Layout.stringChar, Layout.stringLetter, if_neg htab, if_neg hline, if_neg hnul]
  refine ⟨rfl, ?_⟩
  by_cases hlt : x < l.width
  · refine Or.inl ⟨hlt, ?_⟩
    rw [Layout.stringWrap, if_neg (by omega), Layout.stringScroll, if_neg (by omega)]
    exact ⟨congrArg (· + 1) hhx, hhy, hrow⟩
  · refine Or.inr ⟨by omega, ?_⟩
    rw [Layout.stringWrap, if_pos (by omega), Layout.stringScroll]
    split
    · rename_i hfar
      have hfar' : l.height ≤ st.1.y + 1 := hfar
      refine ⟨rfl, ?_, ?_⟩
      · show l.height - 1 = _
        omega
      · show (l.pushUp _).row = _
        rw [Layout.pushUp_row]
        show (st.1.y + 1) % 65536 = _
        omega
    · rename_i hnear
      have hnear' : ¬ l.height ≤ st.1.y + 1 := hnear
      refine ⟨rfl, ?_, ?_⟩
      · show st.1.y + 1 = _
        omega
      · show (st.1.y + 1) % 65536 = _
        omega

theorem Laid.foldl (hl : l.Sound) (text : List (BitVec 8)) :
    ∀ {st : Pen × Spot} {q x : Nat}, (∀ c ∈ text, Plain c) → Laid l p q x st → x ≤ l.width →
      ∃ q' x', Laid l p q' x' (text.foldl l.stringChar st) ∧ x' ≤ l.width ∧
        q' * l.width + x' = q * l.width + x + text.length ∧
        (text ≠ [] → (text.foldl l.stringChar st).2.col + 1 = x') := by
  induction text with
  | nil =>
    intro st q x _ h hx
    exact ⟨q, x, h, hx, rfl, fun hne => absurd rfl hne⟩
  | cons c text ih =>
    intro st q x hplain h hx
    have hrest : ∀ c ∈ text, Plain c := fun c hc => hplain c (List.mem_cons_of_mem _ hc)
    obtain ⟨hcol, hstep⟩ := h.stringChar hl hx (hplain c List.mem_cons_self)
    obtain ⟨q₁, x₁, hlaid, hx₁, hsum⟩ : ∃ q₁ x₁, Laid l p q₁ x₁ (l.stringChar st c) ∧
        x₁ ≤ l.width ∧ q₁ * l.width + x₁ = q * l.width + x + 1 := by
      rcases hstep with ⟨hlt, hlaid⟩ | ⟨he, hlaid⟩
      · exact ⟨q, x + 1, hlaid, hlt, rfl⟩
      · have hwidth := hl.width
        refine ⟨q + 1, 1, hlaid, by omega, ?_⟩
        rw [Nat.add_mul, he]
        omega
    obtain ⟨q', x', hlaid', hx', hsum', hcol'⟩ := ih hrest hlaid hx₁
    refine ⟨q', x', hlaid', hx', ?_, fun _ => ?_⟩
    · rw [hsum', hsum, List.length_cons]
      omega
    · by_cases hne : text = []
      · subst hne
        rw [← hlaid'.x]
        exact hcol
      · exact hcol' hne

theorem autoPrinted_eq {text : List (BitVec 8)} (h : text.length < 2 ^ 32) :
    autoPrinted text = text := by
  rw [autoPrinted, Nat.mod_eq_of_lt h, printed, List.take_left]

/-- A plain text fits when what is left of the screen holds it, with a cell to
spare if the cursor is drawn. -/
theorem fits_plain_iff (hl : l.Sound) (hp : OnScreen l p) {text : List (BitVec 8)}
    (hlen : text.length < 2 ^ 32) (hplain : ∀ c ∈ text, Plain c) (hne : text ≠ []) :
    l.Fits p text ↔ p.col + text.length + p.row * l.width ≤ l.width * l.height ∧
      (l.cursorEnabled = true →
        p.col + text.length + p.row * l.width < l.width * l.height) := by
  have hheight := hl.height
  have hprow := hp.row
  have hstart : Laid l p 0 p.col (⟨p.col, p.row⟩, p) :=
    ⟨rfl, show p.row = _ by omega, show p.row = _ by omega⟩
  obtain ⟨q, x, hlaid, hx, hsum, hcol⟩ := Laid.foldl hl text hplain hstart hp.col
  have hcol' := hcol hne
  have hrow := hlaid.row
  rw [Layout.Fits, Layout.stringEntry, autoPrinted_eq hlen]
  generalize (text.foldl l.stringChar (⟨p.col, p.row⟩, p)).2 = e at hcol' hrow ⊢
  rw [Nat.zero_mul, Nat.zero_add] at hsum
  by_cases hq : p.row + q < l.height
  · have hrows : (p.row + q + 1) * l.width ≤ l.height * l.width := Nat.mul_le_mul_right _ hq
    rw [Nat.add_mul, Nat.add_mul, Nat.one_mul, Nat.mul_comm l.height] at hrows
    rw [show e.row = p.row + q by omega, Nat.add_mul]
    constructor
    · rintro ⟨-, -, hcell⟩
      refine ⟨by omega, fun hc => ?_⟩
      have hlt := hcell hc
      omega
    · rintro ⟨-, hcell⟩
      refine ⟨hq, by omega, fun hc => ?_⟩
      have hlt := hcell hc
      omega
  · have hrows : l.height * l.width ≤ (p.row + q) * l.width := Nat.mul_le_mul_right _ (by omega)
    rw [Nat.add_mul, Nat.mul_comm l.height] at hrows
    constructor
    · rintro ⟨hlt, -⟩
      omega
    · rintro ⟨hle, -⟩
      omega

end Plain

/-! ## From the start -/

/-- The console as the boot code starts it. -/
def startConsole (framebuffer : Ptr) (bpp : BitVec 16) (width height : BitVec 32)
    (textOnly : Bool) (color : BitVec 32) (cursor tracing : Bool) : Kern VgaContext Unit := do
  vgaPrepareEnvironment framebuffer bpp width height textOnly
  kiBlankVgaScreen height width color
  vgaSetCursorEnabled cursor
  vgaTraceCharacters tracing

section Start

variable {framebuffer : Ptr} {width height : BitVec 32} {cursor tracing : Bool}

theorem kernPhysToVirt_ne_zero {n : Nat} (h : InWindow framebuffer n) (hn : 0 < n) :
    kernPhysToVirt framebuffer ≠ 0 := by
  intro hz
  have hnat := toNat_kernPhysToVirt h hn
  rw [hz, show (0 : BitVec 64).toNat = 0 from rfl] at hnat
  omega

theorem prepared_layout (ctx : VgaContext) (framebuffer : Ptr) (bpp : BitVec 16)
    (width height : BitVec 32) (textOnly : Bool) :
    (ctx.prepared framebuffer bpp width height textOnly).layout =
      ⟨(width.setWidth 16).toNat, (height.setWidth 16).toNat, ctx.cursorEnabled, false⟩ := by
  rw [VgaContext.prepared, VgaContext.layout]

theorem prepared_highlight (ctx : VgaContext) (framebuffer : Ptr) (bpp : BitVec 16)
    (width height : BitVec 32) (textOnly : Bool) :
    (ctx.prepared framebuffer bpp width height textOnly).highlight = vgaLightBrown := by
  rw [VgaContext.prepared]

theorem prepared_buffer (ctx : VgaContext) (framebuffer : Ptr) (bpp : BitVec 16)
    (width height : BitVec 32) (textOnly : Bool) :
    (ctx.prepared framebuffer bpp width height textOnly).swappedBuffer =
      kernPhysToVirt framebuffer := by
  rw [VgaContext.prepared]

theorem prepared_ready (hl : Layout.Sound ⟨width.toNat, height.toNat, cursor, tracing⟩)
    (hwindow : InWindow framebuffer (2 * (width.toNat * height.toNat))) (bpp : BitVec 16)
    (textOnly : Bool) (s : Machine VgaContext) :
    let t := { s with statics := s.statics.prepared framebuffer bpp width height textOnly }
    Ready t ∧ t.statics.layout.width = width.toNat ∧ t.statics.layout.height = height.toNat := by
  intro t
  have hsmall : 2 * (width.toNat * height.toNat) < 65536 := hl.cells_small
  have hwle : width.toNat ≤ width.toNat * height.toNat := hl.width_le
  have hhle : height.toNat ≤ width.toNat * height.toNat := hl.height_le
  have hpos : 0 < 2 * (width.toNat * height.toNat) := by
    have : 2 ≤ width.toNat := hl.width
    omega
  have hw : t.statics.layout.width = width.toNat := by
    show (width.setWidth 16).toNat = width.toNat
    rw [BitVec.toNat_setWidth]
    omega
  have hh : t.statics.layout.height = height.toNat := by
    show (height.setWidth 16).toNat = height.toNat
    rw [BitVec.toNat_setWidth]
    omega
  refine ⟨⟨⟨?_, ?_, ?_, ?_⟩, ?_, ?_⟩, hw, hh⟩
  · rw [hw]
    exact hl.even
  · rw [hw]
    exact hl.width
  · rw [hh]
    exact hl.height
  · rw [hw, hh]
    exact hl.small
  · rw [VgaContext.screenBytes, hw, hh]
    exact spans_kernPhysToVirt hwindow hpos
  · exact kernPhysToVirt_ne_zero hwindow hpos

/-- The state in which the boot code leaves the console. -/
structure Started (b : Ptr) (l : Layout) (s t : Machine VgaContext) : Prop
    extends Running b l s t where
  spot : t.statics.spot = ⟨0, 0⟩
  outside : ∀ x, x < phys b ∨ phys b + 2 * (l.width * l.height) ≤ x → t.mem x = s.mem x

theorem startConsole_started (hl : Layout.Sound ⟨width.toNat, height.toNat, cursor, tracing⟩)
    (hwindow : InWindow framebuffer (2 * (width.toNat * height.toNat))) (bpp : BitVec 16)
    (textOnly : Bool) (color : BitVec 32) (s : Machine VgaContext) :
    Returns (startConsole framebuffer bpp width height textOnly color cursor tracing) s fun _ t =>
      Started (kernPhysToVirt framebuffer) ⟨width.toNat, height.toNat, cursor, tracing⟩ s t := by
  obtain ⟨hready, hw, hh⟩ := prepared_ready hl hwindow bpp textOnly s
  rw [startConsole, vgaPrepareEnvironment, returns_bind, returns_modifyStatics]
  apply (kiBlankVgaScreen_draws hready hh.symm hw.symm color).bind
  intro _ t ht
  obtain ⟨scr, hb, hspot⟩ := ht
  have hdraws := hb.draws
  simp only [vgaSetCursorEnabled, vgaTraceCharacters, returns_bind, returns_modifyStatics]
  have hwidth : t.statics.screenWidth.toNat = width.toNat := by
    rw [hdraws.width, hdraws.layout, hw]
  have hheight : t.statics.screenHeight.toNat = height.toNat := by
    rw [hdraws.height, hdraws.layout, hh]
  have hlayout : VgaContext.layout
      { t.statics with cursorEnabled := cursor, followingInput := tracing } =
        ⟨width.toNat, height.toNat, cursor, tracing⟩ := by
    rw [VgaContext.layout, hwidth, hheight]
  have hzero : t.statics.spot = ⟨0, 0⟩ := hdraws.spot.trans hspot
  refine ⟨⟨hdraws.buffer, hlayout, ?_, ?_⟩, hzero, ?_⟩
  · show OnScreen _ t.statics.spot
    rw [hlayout, hzero]
    exact ⟨hl.height, Nat.zero_le _⟩
  · obtain ⟨new, hnew, hall⟩ := hdraws.records
    refine ⟨new, hnew, fun e he => ?_⟩
    have hin := hall e he
    rw [StoresInside, VgaContext.screenBytes, hw, hh] at hin
    rw [StoresInside, VgaContext.screenBytes, hlayout]
    show StoresBelow t.statics.swappedBuffer _ e
    rw [hdraws.buffer]
    exact hin
  · intro x hx
    refine hdraws.outside x ?_
    rw [VgaContext.screenBytes, hw, hh]
    exact hx

theorem vgaCalls_inside (hl : Layout.Sound ⟨width.toNat, height.toNat, cursor, tracing⟩)
    (hwindow : InWindow framebuffer (2 * (width.toNat * height.toNat))) (bpp : BitVec 16)
    (textOnly : Bool) (color : BitVec 32) (s : Machine VgaContext) :
    Returns (startConsole framebuffer bpp width height textOnly color cursor tracing) s fun _ s₀ =>
      ∀ t, Reached s₀ t →
        t.statics.currentRow.toNat < height.toNat ∧ t.statics.currentCol.toNat ≤ width.toNat ∧
        Records (StoresBelow (kernPhysToVirt framebuffer) (2 * width.toNat * height.toNat)) s t ∧
        ∀ c : VgaCall, c.Supplied t → Returns c.run t fun _ u =>
          (u.statics.currentRow.toNat < height.toNat ∧ u.statics.currentCol.toNat ≤ width.toNat ∧
            Records (StoresBelow (kernPhysToVirt framebuffer) (2 * width.toNat * height.toNat))
              t u) ↔ c.Fits t := by
  have hpos : 0 < 2 * (width.toNat * height.toNat) := by
    have hwidth : 2 ≤ width.toNat := hl.width
    have hle : width.toNat ≤ width.toNat * height.toNat := hl.width_le
    omega
  have hspans := spans_kernPhysToVirt hwindow hpos
  have hb := kernPhysToVirt_ne_zero hwindow hpos
  apply (startConsole_started hl hwindow bpp textOnly color s).mono
  intro _ s₀ hs₀ t ht
  have hrunning := ht.running hl hspans hb hs₀.toRunning
  obtain ⟨hrow, hcol, hstores⟩ := (inside_iff hrunning.buffer hrunning.layout).mp hrunning.inside
  refine ⟨hrow, hcol, hstores, ?_⟩
  intro c hc
  apply (c.run_inside (hrunning.ready hl hspans hb) hrunning.inside.spot hc).mono
  intro _ u hu
  have hiff := inside_iff (s := t) (hu.1.buffer.trans hrunning.buffer)
    (hu.1.layout.trans hrunning.layout)
  exact hiff.symm.trans hu.2

theorem textMode_sound :
    Layout.Sound ⟨(80 : BitVec 32).toNat, (25 : BitVec 32).toNat, true, true⟩ :=
  ⟨by decide, by decide, by decide, by decide⟩

theorem textMode_inWindow :
    InWindow 0xB8000 (2 * ((80 : BitVec 32).toNat * (25 : BitVec 32).toNat)) := by
  unfold InWindow
  decide

/-- Memory at boot, with a string in it. -/
def textMachine (text : List (BitVec 8)) : Machine VgaContext where
  mem := block (fun _ => 0) 0x1000 (text ++ [0])
  log := []
  statics := ⟨0, 0, 0, 0, 0, 0, 0, 0, 0, 0, false, false, false⟩

/-- The string is still there when the console has been started. -/
theorem textMachine_held {text : List (BitVec 8)} (hlen : text.length < 0x1000)
    (hvisible : ∀ c ∈ text, c ≠ 0) {s : Machine VgaContext}
    (hs : Started (kernPhysToVirt 0xB8000) ⟨80, 25, true, true⟩ (textMachine text) s) :
    Holds s 0x1000 text := by
  have hroom : Spans 0x1000 0x1000 := by
    unfold Spans
    decide
  have hphys : ∀ k, k ≤ text.length → phys (0x1000 + BitVec.ofNat 64 k) = 0x1000 + k := by
    intro k hk
    exact phys_add hroom (by omega)
  have hbuffer : phys (kernPhysToVirt 0xB8000) = 0xB8000 :=
    phys_kernPhysToVirt textMode_inWindow (by decide)
  have hstring : CString (textMachine text).mem 0x1000 text :=
    cstring_block (by decide) (hroom.mono (by omega)) hvisible
  refine ⟨hstring.congr fun k hk => ?_, fun k hk => ?_⟩
  · refine hs.outside _ (Or.inl ?_)
    rw [hphys k hk, hbuffer]
    omega
  · rw [hs.buffer, hphys k hk, hbuffer]
    exact Or.inl (by omega)

/-- Two lines that fit at the top of an 80 by 25 screen. -/
def greeting : List (BitVec 8) :=
  [ch 'F', ch 'e', ch 'r', ch 'a', ch 'l', ch '\n', ch 'O', ch 'S']

theorem greeting_fits : Layout.Fits ⟨80, 25, true, true⟩ ⟨0, 0⟩ greeting := by
  decide +kernel

theorem vgaCalls_inside_textMode :
    Returns (startConsole 0xB8000 16 80 25 true vgaBlack true true) (textMachine greeting)
      fun _ s => Returns (vgaAutoPrint vgaWhite vgaBlack 0x1000) s fun _ t =>
        t.statics.currentRow.toNat < 25 ∧ t.statics.currentCol.toNat ≤ 80 ∧
          Records (StoresBelow (kernPhysToVirt 0xB8000) (2 * 80 * 25)) s t := by
  have hstart := startConsole_started textMode_sound textMode_inWindow 16 true vgaBlack
    (textMachine greeting)
  apply ((vgaCalls_inside textMode_sound textMode_inWindow 16 true vgaBlack
    (textMachine greeting)).and hstart).mono
  intro _ s hs
  obtain ⟨hinside, hstarted⟩ := hs
  have hheld : Holds s 0x1000 greeting := textMachine_held (by decide) (by decide) hstarted
  have hfits : (VgaCall.autoPrint vgaWhite vgaBlack 0x1000).Fits s := by
    intro text htext
    rw [← hheld.bytes.unique htext, hstarted.layout, hstarted.spot]
    exact greeting_fits
  have hcall := (hinside s .start).2.2.2 (.autoPrint vgaWhite vgaBlack 0x1000) ⟨_, hheld⟩
  exact hcall.mono fun _ t ht => ht.mpr hfits

theorem lineFeeds_not_fit :
    ¬ Layout.Fits ⟨80, 25, true, true⟩ ⟨0, 0⟩ (List.replicate 25 (ch '\n')) := by
  decide +kernel

theorem lineFeeds_visible : ∀ c ∈ List.replicate 25 (ch '\n'), c ≠ 0 := by
  intro c hc
  rw [List.eq_of_mem_replicate hc]
  exact ch_newline_ne_zero

theorem vgaAutoPrint_lineFeeds_outside :
    Returns (startConsole 0xB8000 16 80 25 true vgaBlack true true)
      (textMachine (List.replicate 25 (ch '\n'))) fun _ s =>
      Returns (vgaAutoPrint vgaWhite vgaBlack 0x1000) s fun _ t =>
        ¬ (t.statics.currentRow.toNat < 25 ∧ t.statics.currentCol.toNat ≤ 80 ∧
          Records (StoresBelow (kernPhysToVirt 0xB8000) (2 * 80 * 25)) s t) := by
  apply (startConsole_started textMode_sound textMode_inWindow 16 true vgaBlack _).mono
  intro _ s hs
  have hheld := textMachine_held (by decide) lineFeeds_visible hs
  have hready := hs.ready textMode_sound (spans_kernPhysToVirt textMode_inWindow (by decide))
    (kernPhysToVirt_ne_zero textMode_inWindow (by decide))
  have hmiss : ¬ s.statics.layout.Fits s.statics.spot (List.replicate 25 (ch '\n')) := by
    rw [hs.layout, hs.spot]
    exact lineFeeds_not_fit
  apply (vgaAutoPrint_not_inside hready hs.inside.spot hheld hmiss _ _).mono
  intro _ t ht hin
  exact ht.2 ((inside_iff (ht.1.buffer.trans hs.buffer) (ht.1.layout.trans hs.layout)).mpr hin)

end Start

end FeralKernel
