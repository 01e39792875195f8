import FeralKernel.Console.Vga
import FeralKernel.Console.Screen

/-!
# The routines draw the screen

Every routine of the console, run on a machine that shows a screen, ends with a
machine that shows what the routine of the same name makes of that screen.  On the
way it stores into the bytes of the screen alone.
-/

namespace FeralKernel

open Verif.Program Verif.Bytes

def VgaContext.layout (ctx : VgaContext) : Layout where
  width := ctx.screenWidth.toNat
  height := ctx.screenHeight.toNat
  cursorEnabled := ctx.cursorEnabled
  followingInput := ctx.followingInput

def VgaContext.spot (ctx : VgaContext) : Spot := ⟨ctx.currentRow.toNat, ctx.currentCol.toNat⟩

/-- The number of bytes of the screen. -/
def VgaContext.screenBytes (ctx : VgaContext) : Nat := 2 * (ctx.layout.width * ctx.layout.height)

/-- The screen that a machine shows. -/
def shown (s : Machine VgaContext) : Screen where
  layout := s.statics.layout
  foreground := s.statics.foreground
  background := s.statics.background
  highlight := s.statics.highlight
  spot := s.statics.spot
  bytes := view s.mem (phys s.statics.swappedBuffer)

/-- A console that has been set up on a screen of a sound size. -/
structure Ready (s : Machine VgaContext) : Prop where
  sound : s.statics.layout.Sound
  spans : Spans s.statics.swappedBuffer s.statics.screenBytes
  nonnull : s.statics.swappedBuffer ≠ 0

/-- A store lies in the `n` bytes from `b` on. -/
def StoresBelow (b : Ptr) (n : Nat) : Event → Prop
  | .write a m => ∃ k, k + m ≤ n ∧ a = b + BitVec.ofNat 64 k
  | _ => True

/-- A store lies inside the screen. -/
def StoresInside (ctx : VgaContext) : Event → Prop :=
  StoresBelow ctx.swappedBuffer ctx.screenBytes

theorem StoresTo.inside {ctx : VgaContext} {a n : Nat} {e : Event}
    (h : StoresTo (ctx.swappedBuffer + BitVec.ofNat 64 a) n e) (hn : a + n ≤ ctx.screenBytes) :
    StoresInside ctx e := by
  obtain ⟨k, hk, rfl⟩ := h
  refine ⟨a + k, by omega, ?_⟩
  rw [BitVec.ofNat_add, BitVec.add_assoc]

/-- A run from `s` to `t` that leaves the machine showing `scr`. -/
structure Draws (s t : Machine VgaContext) (scr : Screen) : Prop where
  shows : shown t = scr
  layout : scr.layout = s.statics.layout
  buffer : t.statics.swappedBuffer = s.statics.swappedBuffer
  outside : ∀ x, x < phys s.statics.swappedBuffer ∨
    phys s.statics.swappedBuffer + s.statics.screenBytes ≤ x → t.mem x = s.mem x
  records : Records (StoresInside s.statics) s t

namespace Draws

variable {s t : Machine VgaContext} {scr : Screen}

theorem refl (s : Machine VgaContext) : Draws s s (shown s) :=
  ⟨rfl, rfl, rfl, fun _ _ => rfl, Records.refl _ s⟩

theorem statics_layout (h : Draws s t scr) : t.statics.layout = scr.layout := by
  rw [← h.shows]
  rfl

theorem spot (h : Draws s t scr) : t.statics.spot = scr.spot := by
  rw [← h.shows]
  rfl

theorem width (h : Draws s t scr) : t.statics.screenWidth.toNat = scr.layout.width := by
  rw [← h.statics_layout]
  rfl

theorem height (h : Draws s t scr) : t.statics.screenHeight.toNat = scr.layout.height := by
  rw [← h.statics_layout]
  rfl

theorem cursorEnabled (h : Draws s t scr) :
    t.statics.cursorEnabled = scr.layout.cursorEnabled := by
  rw [← h.statics_layout]
  rfl

theorem followingInput (h : Draws s t scr) :
    t.statics.followingInput = scr.layout.followingInput := by
  rw [← h.statics_layout]
  rfl

theorem row (h : Draws s t scr) : t.statics.currentRow.toNat = scr.spot.row := by
  rw [← h.spot]
  rfl

theorem col (h : Draws s t scr) : t.statics.currentCol.toNat = scr.spot.col := by
  rw [← h.spot]
  rfl

theorem foreground (h : Draws s t scr) : t.statics.foreground = scr.foreground := by
  rw [← h.shows]
  rfl

theorem background (h : Draws s t scr) : t.statics.background = scr.background := by
  rw [← h.shows]
  rfl

theorem highlight (h : Draws s t scr) : t.statics.highlight = scr.highlight := by
  rw [← h.shows]
  rfl

theorem screenBytes (h : Draws s t scr) :
    s.statics.screenBytes = 2 * (scr.layout.width * scr.layout.height) := by
  rw [h.layout]
  rfl

theorem sound (h : Draws s t scr) (hr : Ready s) : scr.layout.Sound := by
  rw [h.layout]
  exact hr.sound

theorem spans (h : Draws s t scr) (hr : Ready s) :
    Spans t.statics.swappedBuffer (2 * (scr.layout.width * scr.layout.height)) := by
  rw [h.buffer, h.layout]
  exact hr.spans

/-- The position is moved and nothing else. -/
theorem moveTo (h : Draws s t scr) (row col : BitVec 16) :
    Draws s { t with statics := { t.statics with currentRow := row, currentCol := col } }
      (scr.moveTo ⟨row.toNat, col.toNat⟩) := by
  refine ⟨?_, h.layout, h.buffer, h.outside, h.records⟩
  rw [← h.shows]
  rfl

/-- A read leaves what is shown. -/
theorem read (h : Draws s t scr) (a : Ptr) (n : Nat) : Draws s (t.note (.read a n)) scr :=
  ⟨h.shows, h.layout, h.buffer, h.outside, h.records.note (e := .read a n) trivial rfl⟩

/-- A byte of the screen is stored. -/
theorem store8 (h : Draws s t scr) (hr : Ready s) {k : Nat}
    (hk : k < 2 * (scr.layout.width * scr.layout.height)) (v : BitVec 8) :
    Draws s ((t.setMem (write8 t.mem (phys (t.statics.swappedBuffer + BitVec.ofNat 64 k)) v)).note
        (.write (t.statics.swappedBuffer + BitVec.ofNat 64 k) 1))
      (scr.setByte k v) := by
  have hphys := phys_add (h.spans hr) hk
  have hbytes := h.screenBytes
  refine ⟨?_, h.layout, h.buffer, ?_, ?_⟩
  · rw [← h.shows]
    simp only [shown, Screen.setByte, Machine.note_mem, Machine.setMem_mem, Machine.note_statics,
      Machine.setMem_statics, hphys, view_write8]
  · intro x hx
    show write8 t.mem (phys _) v x = _
    rw [hphys, h.buffer]
    rw [hbytes] at hx
    rw [write8_outside (by omega)]
    exact h.outside x (by rw [hbytes]; exact hx)
  · refine h.records.note ?_ rfl
    exact ⟨k, by rw [hbytes]; omega, by rw [h.buffer]⟩

/-- A block of stores inside the screen. -/
theorem setBytes {u : Machine VgaContext} (h : Draws s t scr) (hu : u.statics = t.statics)
    {bytes : Mem} (hbytes : view u.mem (phys t.statics.swappedBuffer) = bytes)
    (hout : ∀ x, x < phys t.statics.swappedBuffer ∨
      phys t.statics.swappedBuffer + 2 * (scr.layout.width * scr.layout.height) ≤ x →
      u.mem x = t.mem x)
    (hrec : Records (StoresInside s.statics) t u) : Draws s u { scr with bytes := bytes } := by
  refine ⟨?_, h.layout, ?_, ?_, h.records.trans hrec⟩
  · rw [← h.shows, ← hbytes, shown, hu]
    rfl
  · rw [hu]
    exact h.buffer
  · intro x hx
    rw [← h.outside x hx]
    apply hout
    rw [h.buffer, h.layout]
    exact hx

end Draws

section Cells

variable {s t : Machine VgaContext} {scr : Screen} {x y : BitVec 32}

theorem toNat_le_setWidth {a : BitVec 16} : (a.setWidth 32).toNat = a.toNat := by
  have ha := a.isLt
  rw [BitVec.toNat_setWidth]
  omega

/-- The offset of a cell, which is computed in 16 bits. -/
theorem toNat_cellOffset (hl : scr.layout.Sound) {w : BitVec 16}
    (hw : w.toNat = scr.layout.width)
    (hcell : x.toNat + y.toNat * scr.layout.width < scr.layout.width * scr.layout.height) :
    ((2 * (x + y * w.setWidth 32)).setWidth 16 : BitVec 16).toNat =
      2 * (x.toNat + y.toNat * scr.layout.width) := by
  have hsmall := hl.cells_small
  rw [BitVec.toNat_setWidth, BitVec.toNat_mul, BitVec.toNat_add, BitVec.toNat_mul,
    toNat_le_setWidth, hw, show (2 : BitVec 32).toNat = 2 from rfl]
  generalize y.toNat * scr.layout.width = z at hcell ⊢
  omega

theorem vgaEntryWith_draws (h : Draws s t scr) (hr : Ready s) (pushUp : Kern VgaContext Unit)
    (fg bg : VgaColorValue) (letter : BitVec 8) (hy : y.toNat < scr.layout.height)
    (hcell : x.toNat + y.toNat * scr.layout.width < scr.layout.width * scr.layout.height) :
    Returns (vgaEntryWith pushUp fg bg letter x y) t fun _ u =>
      Draws s u (scr.entry fg bg letter x.toNat y.toNat) := by
  have hl := h.sound hr
  have hsmall := hl.cells_small
  have hbelow : ¬ t.statics.screenHeight.setWidth 32 ≤ y := by
    rw [BitVec.le_def, toNat_le_setWidth, h.height]
    omega
  have hoff := toNat_cellOffset hl h.width hcell
  have hoff64 : ((2 * (x + y * t.statics.screenWidth.setWidth 32)).setWidth 16 :
      BitVec 16).setWidth 64 = BitVec.ofNat 64 (2 * (x.toNat + y.toNat * scr.layout.width)) := by
    apply BitVec.eq_of_toNat_eq
    rw [BitVec.toNat_setWidth, hoff, BitVec.toNat_ofNat]
  have hcol : (x.setWidth 16).toNat = x.toNat := by
    rw [BitVec.toNat_setWidth]
    omega
  have hcolor : ((fg <<< 0 ||| bg <<< 4).setWidth 16 : BitVec 16).setWidth 8 = cellColor fg bg := by
    rw [BitVec.shiftLeft_zero, cellColor, BitVec.setWidth_setWidth_of_le _ (by decide)]
  rw [vgaEntryWith]
  simp only [returns_bind, returns_getStatics, onlyIf_neg hbelow, returns_pure, returns_store8,
    returns_modifyStatics, hoff64, hcolor]
  generalize hz : 2 * (x.toNat + y.toNat * scr.layout.width) = off
  have hnext : BitVec.ofNat 64 off + 1 = BitVec.ofNat 64 (off + 1) := (BitVec.ofNat_add ..).symm
  rw [hnext, show BitVec.ofNat 64 off + 0 = BitVec.ofNat 64 off from BitVec.add_zero _]
  have hletter := h.store8 hr (k := off) (by omega) letter
  have hlast : off + 1 < 2 * (scr.layout.width * scr.layout.height) := by omega
  have hattr := hletter.store8 hr (k := off + 1) hlast (cellColor fg bg)
  have hdone := hattr.moveTo t.statics.currentRow (x.setWidth 16)
  rw [hcol, h.row] at hdone
  simp only [Screen.entry, hz]
  exact hdone

theorem vgaEntryWithin_draws (h : Draws s t scr) (hr : Ready s) (depth : Nat)
    (fg bg : VgaColorValue) (letter : BitVec 8) (hy : y.toNat < scr.layout.height)
    (hcell : x.toNat + y.toNat * scr.layout.width < scr.layout.width * scr.layout.height) :
    Returns (vgaEntryWithin (depth + 1) fg bg letter x y) t fun _ u =>
      Draws s u (scr.entry fg bg letter x.toNat y.toNat) :=
  vgaEntryWith_draws h hr _ fg bg letter hy hcell

theorem vgaEntry_draws (h : Draws s t scr) (hr : Ready s) (fg bg : VgaColorValue)
    (letter : BitVec 8) (hy : y.toNat < scr.layout.height)
    (hcell : x.toNat + y.toNat * scr.layout.width < scr.layout.width * scr.layout.height) :
    Returns (vgaEntry fg bg letter x y) t fun _ u =>
      Draws s u (scr.entry fg bg letter x.toNat y.toNat) := by
  rw [vgaEntry, loopBound_eq]
  exact vgaEntryWithin_draws h hr _ fg bg letter hy hcell

theorem vgaMoveCursorWith_draws (h : Draws s t scr) (hr : Ready s) (depth : Nat)
    (hcell : scr.layout.cursorEnabled = true → y.toNat < scr.layout.height ∧
      x.toNat + y.toNat * scr.layout.width < scr.layout.width * scr.layout.height) :
    Returns (vgaMoveCursorWith (vgaEntryWithin (depth + 1)) x y) t fun _ u =>
      Draws s u (scr.moveCursor x.toNat y.toNat) := by
  rw [vgaMoveCursorWith, Screen.moveCursor, returns_bind, returns_getStatics, h.cursorEnabled]
  by_cases hcursor : scr.layout.cursorEnabled = true
  · rw [onlyIf_pos hcursor, if_pos hcursor, h.highlight, h.background]
    exact vgaEntryWithin_draws h hr depth _ _ _ (hcell hcursor).1 (hcell hcursor).2
  · rw [onlyIf_neg hcursor, if_neg hcursor, returns_pure]
    exact h

theorem vgaMoveCursor_eq : vgaMoveCursor = vgaMoveCursorWith (vgaEntryWithin (2 ^ 64 - 1 + 1)) := rfl

theorem vgaMoveCursor_draws (h : Draws s t scr) (hr : Ready s)
    (hcell : scr.layout.cursorEnabled = true → y.toNat < scr.layout.height ∧
      x.toNat + y.toNat * scr.layout.width < scr.layout.width * scr.layout.height) :
    Returns (vgaMoveCursor x y) t fun _ u => Draws s u (scr.moveCursor x.toNat y.toNat) := by
  rw [vgaMoveCursor_eq]
  exact vgaMoveCursorWith_draws h hr _ hcell

theorem signExtend_small {a : BitVec 32} {n : Nat} (ha : a.toNat = n) (hn : n < 65536) :
    a.signExtend 64 = BitVec.ofNat 64 n := by
  have hmsb : a.msb = false := by
    rw [BitVec.msb_eq_false_iff_two_mul_lt]
    omega
  rw [BitVec.signExtend_eq_setWidth_of_msb_false hmsb]
  apply BitVec.eq_of_toNat_eq
  rw [BitVec.toNat_setWidth, BitVec.toNat_ofNat, ha]

theorem setBytes_of_four {a : BitVec 64} {n : Nat} (ha : a = BitVec.ofNat 64 n) (hn : n < 2 ^ 64)
    (hfour : n % 4 = 0) : setBytes a = n := by
  have hnat : a.toNat = n := by
    rw [ha, BitVec.toNat_ofNat]
    omega
  rw [setBytes, hnat]
  omega

/-- The sizes that `internalVgaPushUp` computes. -/
structure PushUpSizes (ctx : VgaContext) (l : Layout) : Prop where
  rowSize : ((2 * ctx.screenWidth.setWidth 32 : BitVec 32).setWidth 16 : BitVec 16).setWidth 64 =
    BitVec.ofNat 64 (2 * l.width)
  offset : ((ctx.screenHeight.setWidth 32 - 1) *
      ((2 * ctx.screenWidth.setWidth 32 : BitVec 32).setWidth 16 : BitVec 16).setWidth 32 :
      BitVec 32).signExtend 64 = BitVec.ofNat 64 (2 * l.width * (l.height - 1))
  amt : (2 * ctx.screenWidth.setWidth 32 * (ctx.screenHeight.setWidth 32 - 1) :
      BitVec 32).signExtend 64 = BitVec.ofNat 64 (2 * l.width * (l.height - 1))
  lastRow : (ctx.screenHeight.setWidth 32 - 1 : BitVec 32).toNat = l.height - 1

theorem pushUpSizes (h : Draws s t scr) (hr : Ready s) : PushUpSizes t.statics scr.layout := by
  have hl := h.sound hr
  have hrows := hl.rows
  have hsmall := hl.cells_small
  have hheight := hl.height
  have hwidth := hl.width_le
  have hle := hl.height_le
  have hlast : (t.statics.screenHeight.setWidth 32 - 1 : BitVec 32).toNat =
      scr.layout.height - 1 := by
    rw [BitVec.toNat_sub, toNat_le_setWidth, h.height, show (1 : BitVec 32).toNat = 1 from rfl]
    omega
  have hdouble : (2 * t.statics.screenWidth.setWidth 32 : BitVec 32).toNat =
      2 * scr.layout.width := by
    rw [BitVec.toNat_mul, toNat_le_setWidth, h.width, show (2 : BitVec 32).toNat = 2 from rfl]
    omega
  have hrow : ((2 * t.statics.screenWidth.setWidth 32 : BitVec 32).setWidth 16 : BitVec 16).toNat =
      2 * scr.layout.width := by
    rw [BitVec.toNat_setWidth, hdouble]
    omega
  refine ⟨?_, ?_, ?_, hlast⟩
  · apply BitVec.eq_of_toNat_eq
    rw [BitVec.toNat_setWidth, hrow, BitVec.toNat_ofNat]
  · refine signExtend_small ?_ (by omega)
    rw [BitVec.toNat_mul, toNat_le_setWidth, hrow, hlast, Nat.mul_comm (scr.layout.height - 1)]
    omega
  · refine signExtend_small ?_ (by omega)
    rw [BitVec.toNat_mul, hdouble, hlast]
    omega

/-- The copy of all rows but the first and the clearing of the last one. -/
theorem shiftRows_draws (h : Draws s t scr) (hr : Ready s) {rowBytes kept : Nat}
    (hrow : 2 * scr.layout.width = rowBytes) (hkept : rowBytes * (scr.layout.height - 1) = kept) :
    Returns (kiCopyMemory t.statics.swappedBuffer
        (t.statics.swappedBuffer + BitVec.ofNat 64 rowBytes) (BitVec.ofNat 64 kept)) t fun _ u =>
      Returns (kiSetMemoryBytes (t.statics.swappedBuffer + BitVec.ofNat 64 kept) 0
        (BitVec.ofNat 64 rowBytes)) u fun _ v => Draws s v scr.shiftRows := by
  have hl := h.sound hr
  have hrows := hl.rows
  have hsmall := hl.cells_small
  have hspans := h.spans hr
  have hwidth := hl.width
  rw [hrow, hkept] at hrows
  have hrow4 : rowBytes % 4 = 0 := by
    have := hl.even
    omega
  have hkept4 : kept % 4 = 0 := by
    rw [← hkept]
    exact Nat.mod_eq_zero_of_dvd (Nat.dvd_mul_right_of_dvd (Nat.dvd_of_mod_eq_zero hrow4) _)
  have hsetKept := setBytes_of_four (a := BitVec.ofNat 64 kept) rfl (by omega) hkept4
  have hsetRow := setBytes_of_four (a := BitVec.ofNat 64 rowBytes) rfl (by omega) hrow4
  have hspanKept : Spans t.statics.swappedBuffer (rowBytes + setBytes (BitVec.ofNat 64 kept)) := by
    rw [hsetKept, Nat.add_comm, hrows]
    exact hspans
  have hspanRow : Spans (t.statics.swappedBuffer + BitVec.ofNat 64 kept)
      (setBytes (BitVec.ofNat 64 rowBytes)) := by
    rw [hsetRow]
    exact hspans.sub (by omega) (by omega)
  have hnull : BitVec.ofNat 64 kept ≠ 0 →
      t.statics.swappedBuffer + BitVec.ofNat 64 rowBytes ≠ 0 ∧ t.statics.swappedBuffer ≠ 0 := by
    intro hne
    have hpos : kept ≠ 0 := by
      intro hz
      rw [hz] at hne
      exact hne rfl
    exact ⟨hspans.add_ne_zero (by omega) (by omega), by rw [h.buffer]; exact hr.nonnull⟩
  have hcopy := kiCopyMemory_down (s := t) hspanKept
    (by rw [BitVec.toNat_ofNat]; omega) hnull
  apply hcopy.mono
  intro _ u hu
  refine (kiSetMemoryBytes_records (s := u) hspanRow (by rw [BitVec.toNat_ofNat]; omega)).mono ?_
  intro _ v hv
  obtain ⟨-, hvmem, hvside, hvrec⟩ := hv
  rw [hsetKept] at hu
  rw [hsetRow] at hvmem hvrec
  have hphys := phys_add hspans (show kept < 2 * (scr.layout.width * scr.layout.height) by omega)
  refine h.setBytes (hvside.1.trans hu.side.1) ?_ ?_ ?_
  · rw [hvmem, hphys, hu.mem, view_fill, view_move, hrow, hkept, ← h.shows]
    rfl
  · intro x hx
    rw [hvmem, hphys, hu.mem, fill_outside (by omega), move_outside (by omega)]
  · have hbytes := h.screenBytes
    refine (hu.records.mono ?_).trans (hvrec.mono ?_)
    · intro e he
      rcases he with he | ⟨k, _, rfl⟩
      · rw [h.buffer, ← BitVec.add_zero s.statics.swappedBuffer] at he
        exact StoresTo.inside (a := 0) he (by omega)
      · trivial
    · intro e he
      rw [h.buffer] at he
      exact he.inside (by omega)

theorem internalVgaPushUpWith_draws (h : Draws s t scr) (hr : Ready s) (depth : Nat) :
    Returns (internalVgaPushUpWith (vgaMoveCursorWith (vgaEntryWithin (depth + 1)))) t fun _ u =>
      Draws s u scr.pushUp := by
  have hl := h.sound hr
  have hzero : 0 < scr.layout.width := by
    have := hl.width
    omega
  obtain ⟨hrowSize, hoffset, hamt, hlast⟩ := pushUpSizes h hr
  have hbottom : (t.statics.screenHeight.setWidth 32 - 1 : BitVec 32).toNat < scr.layout.height := by
    have := hl.height
    rw [hlast]
    omega
  rw [internalVgaPushUpWith]
  simp only [returns_bind, returns_getStatics, hrowSize, hoffset, hamt,
    show t.statics.swappedBuffer + 0 = t.statics.swappedBuffer from BitVec.add_zero _]
  apply (shiftRows_draws h hr rfl rfl).mono
  intro _ u hu
  apply hu.mono
  intro _ v hshift
  have hmove := vgaMoveCursorWith_draws (x := 0) (y := t.statics.screenHeight.setWidth 32 - 1)
    hshift hr depth (fun _ => ⟨hbottom, Layout.Sound.cell_lt hzero hbottom⟩)
  rw [hlast] at hmove
  exact hmove

theorem internalVgaPushUp_draws (h : Draws s t scr) (hr : Ready s) :
    Returns internalVgaPushUp t fun _ u => Draws s u scr.pushUp := by
  rw [internalVgaPushUp, vgaMoveCursor_eq]
  exact internalVgaPushUpWith_draws h hr _

end Cells

/-! ## The position -/

section Positions

variable {s t : Machine VgaContext} {scr : Screen}

theorem toNat_succ_row {a : BitVec 16} : (a + 1).toNat = (a.toNat + 1) % 65536 := by
  rw [BitVec.toNat_add, show (1 : BitVec 16).toNat = 1 from rfl]

theorem wrapColumn_draws (h : Draws s t scr) :
    Returns wrapColumn t fun _ u => Draws s u scr.wrap := by
  have hcheck : t.statics.screenWidth ≤ t.statics.currentCol ↔
      scr.layout.width ≤ scr.spot.col := by
    rw [BitVec.le_def, h.width, h.col]
  rw [wrapColumn, returns_modifyStatics]
  by_cases hle : scr.layout.width ≤ scr.spot.col
  · have hnext := h.moveTo (t.statics.currentRow + 1) 0
    rw [toNat_succ_row, h.row] at hnext
    rw [if_pos (hcheck.mpr hle), Screen.wrap, Layout.wrap, if_pos hle]
    exact hnext
  · rw [if_neg (fun hc => hle (hcheck.mp hc)), Screen.wrap, Layout.wrap, if_neg hle]
    exact h

theorem scrollRow_draws (h : Draws s t scr) (hr : Ready s) :
    Returns scrollRow t fun _ u => Draws s u scr.settle := by
  have hl := h.sound hr
  have hheight := hl.height
  have hcheck : t.statics.screenHeight ≤ t.statics.currentRow ↔
      scr.layout.height ≤ scr.spot.row := by
    rw [BitVec.le_def, h.height, h.row]
  rw [scrollRow, returns_bind, returns_getStatics]
  by_cases hle : scr.layout.height ≤ scr.spot.row
  · have hlast : (t.statics.screenHeight - 1).toNat = scr.layout.height - 1 := by
      have hlt := t.statics.screenHeight.isLt
      rw [BitVec.toNat_sub, show (1 : BitVec 16).toNat = 1 from rfl, ← h.height] at *
      omega
    have hmoved := h.moveTo (t.statics.screenHeight - 1) t.statics.currentCol
    rw [hlast, h.col] at hmoved
    rw [onlyIf_pos (hcheck.mpr hle), returns_bind, returns_setStatics, Screen.settle, if_pos hle]
    exact internalVgaPushUp_draws hmoved hr
  · rw [onlyIf_neg (fun hc => hle (hcheck.mp hc)), returns_pure, Screen.settle, if_neg hle]
    exact h

theorem moveCursorHere_draws (h : Draws s t scr) (hr : Ready s)
    (hcell : scr.layout.cursorEnabled = true → scr.spot.row < scr.layout.height ∧
      scr.spot.col + scr.spot.row * scr.layout.width < scr.layout.width * scr.layout.height) :
    Returns moveCursorHere t fun _ u => Draws s u scr.cursorHere := by
  rw [moveCursorHere, returns_bind, returns_getStatics, Screen.cursorHere, ← h.row, ← h.col,
    ← toNat_le_setWidth (a := t.statics.currentCol), ← toNat_le_setWidth (a := t.statics.currentRow)]
  apply vgaMoveCursor_draws h hr
  rw [toNat_le_setWidth, toNat_le_setWidth, h.row, h.col]
  exact hcell

theorem vgaAutoEntry_draws (h : Draws s t scr) (hr : Ready s) (fg bg : VgaColorValue)
    (letter : BitVec 8) :
    Returns (vgaAutoEntry fg bg letter) t fun _ u => Draws s u (scr.autoEntry fg bg letter) := by
  have hl := h.sound hr
  rw [vgaAutoEntry]
  apply (wrapColumn_draws h).bind
  intro _ t1 h1
  apply (scrollRow_draws h1 hr).bind
  intro _ t2 h2
  have hl2 := h2.sound hr
  have hrow : scr.wrap.settle.spot.row < scr.wrap.settle.layout.height := by
    rw [Screen.settle_spot, Screen.settle_layout]
    exact Layout.settle_row_lt hl
  have hcol : scr.wrap.settle.spot.col < scr.wrap.settle.layout.width := by
    rw [Screen.settle_spot, Screen.settle_layout, Screen.wrap_spot]
    exact Layout.settle_wrap_col_lt hl
  rw [returns_bind, returns_getStatics]
  have hentry := vgaEntry_draws (x := t2.statics.currentCol.setWidth 32)
    (y := t2.statics.currentRow.setWidth 32) h2 hr fg bg letter
    (by rw [toNat_le_setWidth, h2.row]; exact hrow)
    (by rw [toNat_le_setWidth, toNat_le_setWidth, h2.row, h2.col]
        exact Layout.Sound.cell_lt hcol hrow)
  apply hentry.bind
  intro _ t3 h3
  rw [toNat_le_setWidth, toNat_le_setWidth, h2.row, h2.col] at h3
  rw [returns_modifyStatics]
  have hnext : (t3.statics.currentCol + 1).toNat = scr.wrap.settle.spot.col + 1 := by
    have hsmall := hl2.cells_small
    have hle := hl2.width_le
    rw [toNat_succ_row, h3.col]
    show (scr.wrap.settle.spot.col + 1) % 65536 = _
    omega
  have hdone := h3.moveTo t3.statics.currentRow (t3.statics.currentCol + 1)
  rw [hnext, h3.row] at hdone
  exact hdone

theorem vgaPutChar_draws (h : Draws s t scr) (hr : Ready s) (letter : BitVec 8) :
    Returns (vgaPutChar letter) t fun _ u => Draws s u (scr.putChar letter) := by
  rw [vgaPutChar, returns_bind, returns_getStatics, h.foreground, h.background]
  apply (vgaAutoEntry_draws h hr scr.foreground scr.background letter).bind
  intro _ t1 h1
  rw [returns_bind, returns_getStatics, h1.followingInput, Screen.putChar]
  generalize scr.autoEntry scr.foreground scr.background letter = next at h1 ⊢
  by_cases hfollow : next.layout.followingInput = true
  · rw [onlyIf_pos hfollow, if_pos hfollow]
    have hl := h1.sound hr
    apply (wrapColumn_draws h1).bind
    intro _ t2 h2
    apply (scrollRow_draws h2 hr).bind
    intro _ t3 h3
    refine moveCursorHere_draws h3 hr ?_
    intro _
    rw [Screen.settle_spot, Screen.settle_layout]
    have hrow := Layout.settle_row_lt (p := next.wrap.spot) hl
    exact ⟨hrow, Layout.Sound.cell_lt (Layout.settle_wrap_col_lt hl) hrow⟩
  · rw [onlyIf_neg hfollow, if_neg hfollow, returns_pure]
    exact h1

theorem internalVgaBackspace_draws (h : Draws s t scr) (hr : Ready s)
    (hspot : OnScreen scr.layout scr.spot) :
    Returns internalVgaBackspace t fun _ u => Draws s u scr.backspace := by
  have hcol := hspot.col
  have hrow := hspot.row
  have hcheck : t.statics.currentCol = 0 ↔ scr.spot.col = 0 := by
    rw [← h.col]
    constructor
    · intro he
      rw [he]
      rfl
    · intro he
      exact BitVec.eq_of_toNat_eq he
  rw [internalVgaBackspace, returns_bind, returns_getStatics, Screen.backspace]
  by_cases hzero : scr.spot.col = 0
  · rw [if_pos (hcheck.mpr hzero), if_pos hzero, returns_pure]
    exact h
  · rw [if_neg (fun hc => hzero (hcheck.mp hc)), if_neg hzero]
    have hx : ((t.statics.currentCol - 1).setWidth 32).toNat = scr.spot.col - 1 := by
      have hlt := t.statics.currentCol.isLt
      rw [toNat_le_setWidth, BitVec.toNat_sub, show (1 : BitVec 16).toNat = 1 from rfl, h.col]
      rw [h.col] at hlt
      omega
    have hy : (t.statics.currentRow.setWidth 32).toNat = scr.spot.row := by
      rw [toNat_le_setWidth, h.row]
    have hcell : scr.spot.col - 1 + scr.spot.row * scr.layout.width <
        scr.layout.width * scr.layout.height := Layout.Sound.cell_lt (by omega) hrow
    rw [← hx, ← hy]
    refine (vgaMoveCursor_draws h hr ?_).bind ?_
    · intro _
      rw [hx, hy]
      exact ⟨hrow, hcell⟩
    · intro _ t1 h1
      apply (vgaPutChar_draws h1 hr (ch ' ')).bind
      intro _ t2 h2
      refine vgaMoveCursor_draws h2 hr ?_
      intro _
      rw [Screen.putChar_layout, Screen.moveCursor_layout, hx, hy]
      exact ⟨hrow, hcell⟩

end Positions

/-! ## Blanking -/

/-- The first `n` cells are blank. -/
def BlankTo (color : VgaColorValue) (n : Nat) (scr : Screen) : Prop :=
  ∀ i, i < n → scr.bytes (2 * i) = 0 ∧ scr.bytes (2 * i + 1) = cellColor color color

section Blank

variable {s t : Machine VgaContext} {scr : Screen} {color : VgaColorValue}

theorem BlankTo.entry {x y : Nat} (h : BlankTo color (x + y * scr.layout.width) scr) :
    BlankTo color (x + y * scr.layout.width + 1) (scr.entry color color 0 x y) := by
  intro i hi
  show write8 (write8 scr.bytes (2 * (x + y * scr.layout.width)) 0)
      (2 * (x + y * scr.layout.width) + 1) (cellColor color color) (2 * i) = 0 ∧
    write8 (write8 scr.bytes (2 * (x + y * scr.layout.width)) 0)
      (2 * (x + y * scr.layout.width) + 1) (cellColor color color) (2 * i + 1) = _
  generalize x + y * scr.layout.width = n at h hi ⊢
  by_cases he : i = n
  · rw [he, write8_same, write8_outside (by omega), write8_same]
    exact ⟨rfl, rfl⟩
  · rw [write8_outside (by omega), write8_outside (by omega), write8_outside (by omega),
      write8_outside (by omega)]
    exact h i (by omega)

/-- The screen while it is being blanked. -/
structure Blanking (s : Machine VgaContext) (color : VgaColorValue) (n : Nat)
    (t : Machine VgaContext) (scr : Screen) : Prop where
  draws : Draws s t scr
  background : scr.background = color
  blank : BlankTo color n scr

theorem blankRow_draws (hr : Ready s) {width : BitVec 32} (hwidth : width.toNat = s.statics.layout.width)
    {h : BitVec 16} (hh : h.toNat < s.statics.layout.height)
    (hb : Blanking s color (h.toNat * s.statics.layout.width) t scr) :
    Returns (blankRow width color h) t fun _ u => ∃ next,
      Blanking s color ((h.toNat + 1) * s.statics.layout.width) u next := by
  have hl := hr.sound
  have hsmall := hl.cells_small
  have hle := hl.width_le
  rw [blankRow]
  refine returns_iterate (fun k w u => w.toNat + k = s.statics.layout.width ∧ ∃ next,
    Blanking s color (w.toNat + h.toNat * s.statics.layout.width) u next)
    ?_ loopBound s.statics.layout.width 0 t ?_ ⟨Nat.zero_add _, scr, ?_⟩
  · intro k w u hI
    obtain ⟨hk, next, hu⟩ := hI
    have hcheck : w.setWidth 32 < width ↔ w.toNat < s.statics.layout.width := by
      rw [BitVec.lt_def, toNat_le_setWidth, hwidth]
    by_cases hlt : w.toNat < s.statics.layout.width
    · rw [if_pos (hcheck.mpr hlt)]
      have hcell : w.toNat + h.toNat * s.statics.layout.width <
          s.statics.layout.width * s.statics.layout.height := Layout.Sound.cell_lt hlt hh
      have hblank := hu.blank
      rw [← hu.draws.layout] at hh hcell hblank
      have hentry := vgaEntry_draws (x := w.setWidth 32) (y := h.setWidth 32) hu.draws hr color color
        0 (by rw [toNat_le_setWidth]; exact hh) (by rw [toNat_le_setWidth, toNat_le_setWidth]; exact hcell)
      rw [toNat_le_setWidth, toNat_le_setWidth] at hentry
      apply hentry.bind
      intro _ v hv
      have hnext : (w + 1).toNat = w.toNat + 1 := by
        rw [toNat_succ_row]
        omega
      rw [returns_pure]
      refine ⟨k - 1, by omega, by omega, _, hv, hu.background, ?_⟩
      rw [hnext, Nat.add_right_comm, ← hu.draws.layout]
      exact hblank.entry
    · rw [if_neg (fun hc => hlt (hcheck.mp hc)), returns_pure]
      refine ⟨next, ?_⟩
      rw [show w.toNat = s.statics.layout.width by omega] at hu
      rw [Nat.add_mul, Nat.one_mul, Nat.add_comm]
      exact hu
  · rw [loopBound]
    omega
  · rw [show (0 : BitVec 16).toNat = 0 from rfl, Nat.zero_add]
    exact hb

theorem kiBlankVgaScreen_draws (hr : Ready s) {height width : BitVec 32}
    (hheight : height.toNat = s.statics.layout.height)
    (hwidth : width.toNat = s.statics.layout.width) (color : VgaColorValue) :
    Returns (kiBlankVgaScreen height width color) s fun _ t => ∃ scr,
      Blanking s color (s.statics.layout.width * s.statics.layout.height) t scr ∧
        scr.spot = ⟨0, 0⟩ := by
  have hl := hr.sound
  have hsmall := hl.cells_small
  have hle := hl.height_le
  rw [kiBlankVgaScreen, returns_bind, returns_modifyStatics]
  have hstart : Draws s { s with statics := { s.statics with background := color } }
      { shown s with background := color } :=
    ⟨rfl, rfl, rfl, fun _ _ => rfl, ⟨[], rfl, fun _ he => nomatch he⟩⟩
  refine Returns.bind (P := fun _ t => ∃ scr,
    Blanking s color (s.statics.layout.width * s.statics.layout.height) t scr) ?_ ?_
  · refine returns_iterate (fun k h u => h.toNat + k = s.statics.layout.height ∧ ∃ next,
      Blanking s color (h.toNat * s.statics.layout.width) u next)
      ?_ loopBound s.statics.layout.height 0 _ ?_ ⟨Nat.zero_add _, _, hstart, rfl, ?_⟩
    · intro k h u hI
      obtain ⟨hk, next, hu⟩ := hI
      have hcheck : h.setWidth 32 < height ↔ h.toNat < s.statics.layout.height := by
        rw [BitVec.lt_def, toNat_le_setWidth, hheight]
      by_cases hlt : h.toNat < s.statics.layout.height
      · rw [if_pos (hcheck.mpr hlt)]
        apply (blankRow_draws hr hwidth hlt hu).bind
        intro _ v hv
        have hnext : (h + 1).toNat = h.toNat + 1 := by
          rw [toNat_succ_row]
          omega
        rw [returns_pure]
        refine ⟨k - 1, by omega, by omega, ?_⟩
        rw [hnext]
        exact hv
      · rw [if_neg (fun hc => hlt (hcheck.mp hc)), returns_pure]
        refine ⟨next, ?_⟩
        rw [show h.toNat = s.statics.layout.height by omega, Nat.mul_comm] at hu
        exact hu
    · rw [loopBound]
      omega
    · intro i hi
      rw [show (0 : BitVec 16).toNat = 0 from rfl, Nat.zero_mul] at hi
      omega
  · intro _ t ht
    obtain ⟨scr, hscr⟩ := ht
    rw [vgaSetCurrentPosition, returns_modifyStatics]
    exact ⟨_, ⟨hscr.draws.moveTo 0 0, hscr.background, hscr.blank⟩, rfl⟩

end Blank

end FeralKernel
