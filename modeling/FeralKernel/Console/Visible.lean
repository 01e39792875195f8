import FeralKernel.Console.VgaRun

/-!
# What can be seen of a screen

A `Screen` carries the memory behind its last cell along, which other code may write to.  Two
screens are alike if they differ there at most.  The routines keep screens alike, so what is
drawn does not depend on anything else in memory.
-/

namespace FeralKernel

open Verif.Bytes

namespace Screen

/-- The same cells, position and colours. -/
structure Alike (scr scr' : Screen) : Prop where
  layout : scr'.layout = scr.layout
  foreground : scr'.foreground = scr.foreground
  background : scr'.background = scr.background
  highlight : scr'.highlight = scr.highlight
  spot : scr'.spot = scr.spot
  bytes : ∀ k, k < 2 * (scr.layout.width * scr.layout.height) → scr'.bytes k = scr.bytes k

namespace Alike

variable {scr scr' scr'' : Screen}

theorem refl (scr : Screen) : Alike scr scr := ⟨rfl, rfl, rfl, rfl, rfl, fun _ _ => rfl⟩

theorem symm (h : Alike scr scr') : Alike scr' scr := by
  refine ⟨h.layout.symm, h.foreground.symm, h.background.symm, h.highlight.symm, h.spot.symm, ?_⟩
  intro k hk
  rw [h.layout] at hk
  exact (h.bytes k hk).symm

theorem trans (h : Alike scr scr') (h' : Alike scr' scr'') : Alike scr scr'' := by
  refine ⟨h'.layout.trans h.layout, h'.foreground.trans h.foreground,
    h'.background.trans h.background, h'.highlight.trans h.highlight, h'.spot.trans h.spot, ?_⟩
  intro k hk
  rw [h'.bytes k (by rw [h.layout]; exact hk), h.bytes k hk]

theorem moveTo (h : Alike scr scr') (p : Spot) : Alike (scr.moveTo p) (scr'.moveTo p) :=
  ⟨h.layout, h.foreground, h.background, h.highlight, rfl, h.bytes⟩

theorem setByte (h : Alike scr scr') (k : Nat) (v : BitVec 8) :
    Alike (scr.setByte k v) (scr'.setByte k v) := by
  refine ⟨h.layout, h.foreground, h.background, h.highlight, h.spot, ?_⟩
  intro j hj
  show write8 scr'.bytes k v j = write8 scr.bytes k v j
  by_cases hk : j = k
  · rw [hk, write8_same, write8_same]
  · rw [write8_outside hk, write8_outside hk]
    exact h.bytes j hj

theorem entry (h : Alike scr scr') (fg bg : BitVec 32) (letter : BitVec 8) (x y : Nat) :
    Alike (scr.entry fg bg letter x y) (scr'.entry fg bg letter x y) := by
  rw [Screen.entry, Screen.entry, h.layout, h.spot]
  exact ((h.setByte _ _).setByte _ _).moveTo _

theorem moveCursor (h : Alike scr scr') (x y : Nat) :
    Alike (scr.moveCursor x y) (scr'.moveCursor x y) := by
  rw [Screen.moveCursor, Screen.moveCursor, h.layout, h.highlight, h.background]
  split
  · exact h.entry _ _ _ _ _
  · exact h

/-- A row is moved up from a row of the screen. -/
theorem shiftRows (h : Alike scr scr') (hl : scr.layout.Sound) :
    Alike scr.shiftRows scr'.shiftRows := by
  refine ⟨h.layout, h.foreground, h.background, h.highlight, h.spot, ?_⟩
  intro k hk
  have hrows := hl.rows
  have hk' : k < 2 * (scr.layout.width * scr.layout.height) := hk
  have hlayout := h.layout
  show fill (move scr'.bytes 0 (2 * scr'.layout.width) (2 * scr'.layout.width *
      (scr'.layout.height - 1))) (2 * scr'.layout.width * (scr'.layout.height - 1))
      (2 * scr'.layout.width) 0 k =
    fill (move scr.bytes 0 (2 * scr.layout.width) (2 * scr.layout.width *
      (scr.layout.height - 1))) (2 * scr.layout.width * (scr.layout.height - 1))
      (2 * scr.layout.width) 0 k
  rw [hlayout]
  by_cases hin : 2 * scr.layout.width * (scr.layout.height - 1) ≤ k
  · rw [fill_inside (by omega), fill_inside (by omega)]
  · rw [fill_outside (by omega), fill_outside (by omega), move_inside (by omega),
      move_inside (by omega)]
    exact h.bytes _ (by omega)

theorem pushUp (h : Alike scr scr') (hl : scr.layout.Sound) : Alike scr.pushUp scr'.pushUp := by
  rw [Screen.pushUp, Screen.pushUp, h.layout]
  exact (h.shiftRows hl).moveCursor _ _

theorem wrap (h : Alike scr scr') : Alike scr.wrap scr'.wrap := by
  rw [Screen.wrap, Screen.wrap, h.layout, h.spot]
  exact h.moveTo _

theorem settle (h : Alike scr scr') (hl : scr.layout.Sound) : Alike scr.settle scr'.settle := by
  rw [Screen.settle, Screen.settle, h.layout, h.spot]
  split
  · exact (h.moveTo _).pushUp hl
  · exact h

theorem cursorHere (h : Alike scr scr') : Alike scr.cursorHere scr'.cursorHere := by
  rw [Screen.cursorHere, Screen.cursorHere, h.spot]
  exact h.moveCursor _ _

theorem stepCol (h : Alike scr scr') : Alike scr.stepCol scr'.stepCol := by
  rw [Screen.stepCol, Screen.stepCol, h.spot]
  exact h.moveTo _

theorem autoEntry (h : Alike scr scr') (hl : scr.layout.Sound) (fg bg : BitVec 32)
    (letter : BitVec 8) : Alike (scr.autoEntry fg bg letter) (scr'.autoEntry fg bg letter) := by
  have hsettled := h.wrap.settle hl
  rw [Screen.autoEntry, Screen.autoEntry, entryHere, entryHere, hsettled.spot]
  exact (hsettled.entry _ _ _ _ _).stepCol

theorem putChar (h : Alike scr scr') (hl : scr.layout.Sound) (letter : BitVec 8) :
    Alike (scr.putChar letter) (scr'.putChar letter) := by
  have hentry := h.autoEntry hl scr.foreground scr.background letter
  rw [Screen.putChar, Screen.putChar, h.foreground, h.background, hentry.layout]
  split
  · exact (hentry.wrap.settle (by rw [wrap_layout, autoEntry_layout]; exact hl)).cursorHere
  · exact hentry

theorem backspace (h : Alike scr scr') (hl : scr.layout.Sound) :
    Alike scr.backspace scr'.backspace := by
  rw [Screen.backspace, Screen.backspace, h.spot]
  split
  · exact h
  · exact ((h.moveCursor _ _).putChar (by rw [moveCursor_layout]; exact hl) _).moveCursor _ _

theorem spaces (h : Alike scr scr') (hl : scr.layout.Sound) (n : Nat) :
    Alike (scr.spaces n) (scr'.spaces n) := by
  induction n generalizing scr scr' with
  | zero => exact h
  | succ n ih => exact ih (h.putChar hl _) (by rw [putChar_layout]; exact hl)

end Alike

/-- A pen on two screens that are alike. -/
structure SamePen (st st' : Pen × Screen) : Prop where
  pen : st'.1 = st.1
  alike : Alike st.2 st'.2

namespace SamePen

variable {st st' : Pen × Screen} {fg bg : BitVec 32}

theorem stringWrap (h : SamePen st st') : SamePen (stringWrap st) (stringWrap st') := by
  rw [Screen.stringWrap, Screen.stringWrap, h.pen, h.alike.layout, h.alike.spot]
  split
  · exact ⟨rfl, h.alike.moveTo _⟩
  · exact h

theorem stringScroll (h : SamePen st st') (hl : st.2.layout.Sound) :
    SamePen (stringScroll st) (stringScroll st') := by
  rw [Screen.stringScroll, Screen.stringScroll, h.pen, h.alike.layout]
  split
  · exact ⟨rfl, h.alike.pushUp hl⟩
  · exact h

theorem stringLetter (h : SamePen st st') (hl : st.2.layout.Sound) (c : BitVec 8) :
    SamePen (stringLetter fg bg c st) (stringLetter fg bg c st') := by
  have hspaces := h.alike.spaces hl 8
  rw [Screen.stringLetter, Screen.stringLetter, h.pen, h.alike.spot]
  generalize Screen.spaces 8 st.2 = blanks at hspaces ⊢
  generalize Screen.spaces 8 st'.2 = blanks' at hspaces ⊢
  split
  · exact ⟨rfl, hspaces⟩
  · split
    · exact ⟨rfl, h.alike.moveTo _⟩
    · split
      · exact h
      · exact ⟨rfl, h.alike.entry _ _ _ _ _⟩

theorem stringChar (h : SamePen st st') (hl : st.2.layout.Sound) (c : BitVec 8) :
    SamePen (stringChar fg bg st c) (stringChar fg bg st' c) := by
  have hwrap := (stringWrap_place st).1
  have hscroll := (stringScroll_place (Screen.stringWrap st)).1
  refine (h.stringWrap.stringScroll ?_).stringLetter ?_ c
  · rw [hwrap]
    exact hl
  · rw [hscroll, hwrap]
    exact hl

theorem foldl (text : List (BitVec 8)) : ∀ {st st' : Pen × Screen}, SamePen st st' →
    st.2.layout.Sound →
    SamePen (text.foldl (Screen.stringChar fg bg) st) (text.foldl (Screen.stringChar fg bg) st') := by
  induction text with
  | nil =>
    intro st st' h _
    exact h
  | cons c text ih =>
    intro st st' h hl
    exact ih (h.stringChar hl c) (by rw [(stringChar_place fg bg st c).1]; exact hl)

end SamePen

namespace Alike

variable {scr scr' : Screen} (h : Alike scr scr') (hl : scr.layout.Sound)
include h hl

theorem stringEntry (fg bg : BitVec 32) (text : List (BitVec 8)) :
    Alike (scr.stringEntry fg bg text) (scr'.stringEntry fg bg text) := by
  have hstart : SamePen (⟨scr.spot.col, scr.spot.row⟩, scr) (⟨scr.spot.col, scr.spot.row⟩, scr') :=
    ⟨rfl, h⟩
  rw [Screen.stringEntry, Screen.stringEntry, h.spot]
  exact (SamePen.foldl text hstart hl).alike

theorem println (fg bg : BitVec 32) (text : List (BitVec 8)) :
    Alike (scr.println fg bg text) (scr'.println fg bg text) := by
  have hentry := h.stringEntry hl fg bg text
  rw [Screen.println, Screen.println, hentry.spot]
  exact ((hentry.moveTo _).settle (by rw [moveTo_layout, stringEntry_layout]; exact hl)).cursorHere

end Alike

end Screen

/-! ## A console that shows a screen -/

open Verif.Program

/-- The console is set up, shows `scr` as far as it can be seen, and its position is on the
screen. -/
structure ShowsScreen (s : Machine VgaContext) (scr : Screen) : Prop where
  ready : Ready s
  alike : (shown s).Alike scr
  spot : OnScreen scr.layout scr.spot

namespace ShowsScreen

variable {s t : Machine VgaContext} {scr scr' : Screen}

theorem sound (h : ShowsScreen s scr) : scr.layout.Sound := by
  rw [h.alike.layout]
  exact h.ready.sound

/-- What is drawn on the shown screen is drawn on the one it is like. -/
theorem draws (h : ShowsScreen s scr) {drawn : Screen} (hd : Draws s t drawn)
    (hlike : drawn.Alike scr') (hspot : OnScreen scr'.layout scr'.spot) :
    ShowsScreen t scr' := by
  have hlayout : t.statics.layout = s.statics.layout := by rw [hd.statics_layout, hd.layout]
  refine ⟨⟨?_, ?_, ?_⟩, ?_, hspot⟩
  · rw [hlayout]
    exact h.ready.sound
  · rw [hd.buffer, VgaContext.screenBytes, hlayout]
    exact h.ready.spans
  · rw [hd.buffer]
    exact h.ready.nonnull
  · rw [hd.shows]
    exact hlike

/-- Code that writes beside the screen does not change what is shown. -/
theorem congr (h : ShowsScreen s scr) (hstat : t.statics = s.statics)
    (hmem : ∀ x, phys s.statics.swappedBuffer ≤ x →
      x < phys s.statics.swappedBuffer + s.statics.screenBytes → t.mem x = s.mem x) :
    ShowsScreen t scr := by
  refine ⟨⟨?_, ?_, ?_⟩, ?_, h.spot⟩
  · rw [hstat]
    exact h.ready.sound
  · rw [hstat]
    exact h.ready.spans
  · rw [hstat]
    exact h.ready.nonnull
  · refine Screen.Alike.trans ?_ h.alike
    rw [shown, shown, hstat]
    refine ⟨rfl, rfl, rfl, rfl, rfl, fun k hk => ?_⟩
    exact (hmem _ (Nat.le_add_right _ _) (Nat.add_lt_add_left hk _)).symm

end ShowsScreen

end FeralKernel
