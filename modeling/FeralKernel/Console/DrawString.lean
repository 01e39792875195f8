import FeralKernel.Console.Draw

/-!
# Printing strings draws the screen

The string routines, in the same form as the routines they are made of.
`VgaStringEntry` keeps a position of its own and scrolls by itself, and a newline
or a tab moves the position of the context instead.
-/

namespace FeralKernel

open Verif.Program Verif.Bytes

/-- A string that is in memory, with no byte of it on the screen. -/
structure Holds (s : Machine VgaContext) (string : Ptr) (text : List (BitVec 8)) : Prop where
  bytes : CString s.mem string text
  apart : ∀ k, k ≤ text.length →
    phys (string + BitVec.ofNat 64 k) < phys s.statics.swappedBuffer ∨
      phys s.statics.swappedBuffer + s.statics.screenBytes ≤ phys (string + BitVec.ofNat 64 k)

/-- The locals of `VgaStringEntry` are the pen. -/
structure PenAt (posx posy : BitVec 32) (pen : Pen) : Prop where
  x : posx.toNat = pen.x
  y : posy.toNat = pen.y

section Strings

variable {s t : Machine VgaContext} {scr : Screen} {st : Pen × Screen} {posx posy : BitVec 32}
  {string : Ptr} {text : List (BitVec 8)}

theorem Draws.holds (h : Draws s t scr) (hs : Holds s string text) : CString t.mem string text :=
  hs.bytes.congr fun k hk => h.outside _ (hs.apart k hk)

theorem stringWrap_draws (h : Draws s t st.2) (hpen : PenAt posx posy st.1)
    (hy : st.1.y < 65536) :
    Returns (stringWrap posx posy) t fun r u =>
      Draws s u (Screen.stringWrap st).2 ∧ PenAt r.1 r.2 (Screen.stringWrap st).1 := by
  have hcheck : t.statics.screenWidth.setWidth 32 ≤ posx ↔ st.2.layout.width ≤ st.1.x := by
    rw [BitVec.le_def, toNat_le_setWidth, h.width, hpen.x]
  rw [stringWrap, returns_bind, returns_getStatics, Screen.stringWrap]
  by_cases hle : st.2.layout.width ≤ st.1.x
  · have hnext : (posy + 1).toNat = st.1.y + 1 := by
      rw [BitVec.toNat_add, hpen.y, show (1 : BitVec 32).toNat = 1 from rfl]
      omega
    have hrow : ((posy + 1).setWidth 16).toNat = (st.1.y + 1) % 65536 := by
      rw [BitVec.toNat_setWidth, hnext]
    have hmoved := h.moveTo ((posy + 1).setWidth 16) t.statics.currentCol
    rw [hrow, h.col] at hmoved
    rw [if_pos (hcheck.mpr hle), if_pos hle, returns_bind, returns_setStatics, returns_pure]
    exact ⟨hmoved, rfl, hnext⟩
  · rw [if_neg (fun hc => hle (hcheck.mp hc)), if_neg hle, returns_pure]
    exact ⟨h, hpen⟩

theorem stringScroll_draws (h : Draws s t st.2) (hr : Ready s) (hpen : PenAt posx posy st.1) :
    Returns (stringScroll posy) t fun y u =>
      Draws s u (Screen.stringScroll st).2 ∧ PenAt posx y (Screen.stringScroll st).1 := by
  have hcheck : t.statics.screenHeight.setWidth 32 ≤ posy ↔ st.2.layout.height ≤ st.1.y := by
    rw [BitVec.le_def, toNat_le_setWidth, h.height, hpen.y]
  rw [stringScroll, returns_bind, returns_getStatics, Screen.stringScroll]
  by_cases hle : st.2.layout.height ≤ st.1.y
  · rw [if_pos (hcheck.mpr hle), if_pos hle]
    apply (internalVgaPushUp_draws h hr).bind
    intro _ u hu
    rw [returns_pure]
    exact ⟨hu, hpen.x, (pushUpSizes h hr).lastRow⟩
  · rw [if_neg (fun hc => hle (hcheck.mp hc)), if_neg hle, returns_pure]
    exact ⟨h, hpen⟩

theorem spaces_draws (hr : Ready s) (n i : Nat) :
    ∀ {t : Machine VgaContext} {scr : Screen}, Draws s t scr →
      Returns (forRange (fun _ _ => vgaPutChar (ch ' ')) n i ()) t fun _ u =>
        Draws s u (scr.spaces n) := by
  induction n generalizing i with
  | zero =>
    intro t scr h
    rw [forRange, returns_pure]
    exact h
  | succ n ih =>
    intro t scr h
    rw [forRange]
    apply (vgaPutChar_draws h hr (ch ' ')).bind
    intro _ u hu
    exact ih (i + 1) hu

theorem ch_tab_ne_zero : ch '\t' ≠ 0 := by decide

theorem ch_newline_ne_zero : ch '\n' ≠ 0 := by decide

theorem stringChar_draws (h : Draws s t st.2) (hr : Ready s) (hpen : PenAt posx posy st.1)
    (hcell : st.2.layout.AtCell (Screen.place st)) (fg bg : VgaColorValue) (c : BitVec 8) :
    Returns (stringChar fg bg c posx posy) t fun r u =>
      Draws s u (Screen.stringLetter fg bg c st).2 ∧
        match r with
        | none => c = 0
        | some x => c ≠ 0 ∧ PenAt x posy (Screen.stringLetter fg bg c st).1 := by
  have hl := h.sound hr
  rw [stringChar, Screen.stringLetter]
  by_cases htab : c = ch '\t'
  · rw [if_pos htab, if_pos htab]
    apply (spaces_draws hr 8 0 h).bind
    intro _ u hu
    rw [returns_pure]
    dsimp only
    refine ⟨hu, ?_, hpen⟩
    rw [htab]
    exact ch_tab_ne_zero
  · rw [if_neg htab, if_neg htab]
    by_cases hline : c = ch '\n'
    · have hmoved := h.moveTo (t.statics.currentRow + 1) 0
      rw [toNat_succ_row, h.row] at hmoved
      rw [if_pos hline, if_pos hline, returns_bind, returns_modifyStatics, returns_pure]
      refine ⟨hmoved, ?_, hpen⟩
      rw [hline]
      exact ch_newline_ne_zero
    · rw [if_neg hline, if_neg hline]
      by_cases hnul : c = 0
      · rw [if_pos hnul, if_pos hnul, returns_pure]
        exact ⟨h, hnul⟩
      · have hx : st.1.x < st.2.layout.width := hcell.x
        have hy : st.1.y < st.2.layout.height := hcell.y
        have hsmall := hl.cells_small
        have hle := hl.width_le
        rw [if_neg hnul, if_neg hnul]
        have hentry := vgaEntry_draws (x := posx) (y := posy) h hr fg bg c
          (by rw [hpen.y]; exact hy)
          (by rw [hpen.x, hpen.y]; exact Layout.Sound.cell_lt hx hy)
        rw [hpen.x, hpen.y] at hentry
        apply hentry.bind
        intro _ u hu
        rw [returns_pure]
        refine ⟨hu, hnul, ?_, hpen.y⟩
        rw [BitVec.toNat_add, hpen.x, show (1 : BitVec 32).toNat = 1 from rfl]
        show _ = st.1.x + 1
        omega

/-- The wrap and the scroll before a character bring the pen to a cell. -/
theorem atCell_place (hl : st.2.layout.Sound) (hst : st.2.layout.StringAt (Screen.place st)) :
    let next := Screen.stringScroll (Screen.stringWrap st)
    next.2.layout = st.2.layout ∧ st.2.layout.AtCell (Screen.place next) := by
  obtain ⟨hwl, hwp⟩ := Screen.stringWrap_place st
  obtain ⟨hsl, hsp⟩ := Screen.stringScroll_place (Screen.stringWrap st)
  rw [hwl] at hsl hsp
  rw [hwp] at hsp
  refine ⟨hsl, ?_⟩
  rw [hsp]
  exact Layout.stringScroll_atCell hl hst

/-- One character of a string. -/
theorem stringStep_draws (h : Draws s t st.2) (hr : Ready s) (hpen : PenAt posx posy st.1)
    (hst : st.2.layout.StringAt (Screen.place st)) (fg bg : VgaColorValue) (c : BitVec 8)
    {Q : Unit ⊕ StringLoop → Machine VgaContext → Prop} {next : BitVec 32 → BitVec 32 →
      Kern VgaContext (Unit ⊕ StringLoop)}
    (hstop : c = 0 → ∀ u, Draws s u (Screen.stringChar fg bg st c).2 → Q (.inl ()) u)
    (hnext : c ≠ 0 → ∀ u x y, Draws s u (Screen.stringChar fg bg st c).2 →
      PenAt x y (Screen.stringChar fg bg st c).1 → Returns (next x y) u Q) :
    Returns (do
      let (posx, posy) ← stringWrap posx posy
      let posy ← stringScroll posy
      match ← stringChar fg bg c posx posy with
      | none => pure (.inl ())
      | some posx => next posx posy) t Q := by
  have hl := h.sound hr
  obtain ⟨hlayout, hcell⟩ := atCell_place hl hst
  apply (stringWrap_draws h hpen hst.y).bind
  intro r t1 h1
  obtain ⟨h1, hpen1⟩ := h1
  apply (stringScroll_draws h1 hr hpen1).bind
  intro y t2 h2
  obtain ⟨h2, hpen2⟩ := h2
  rw [← hlayout] at hcell
  apply (stringChar_draws h2 hr hpen2 hcell fg bg c).bind
  intro r t3 h3
  obtain ⟨h3, hpen3⟩ := h3
  cases r with
  | none =>
    rw [returns_pure]
    exact hstop hpen3 t3 h3
  | some x => exact hnext hpen3.1 t3 x y h3 hpen3.2

theorem drop_printed {n i : Nat} (hi : i < n) (hle : i ≤ text.length) :
    (printed text n).drop i = text.getD i 0 :: (printed text n).drop (i + 1) := by
  have hlen : i < (printed text n).length := by
    rw [printed, List.length_take, List.length_append]
    simp only [List.length_cons, List.length_nil]
    omega
  rw [List.drop_eq_getElem_cons hlen]
  congr 1
  simp only [printed, List.getElem_take]
  by_cases hend : i = text.length
  · subst hend
    rw [List.getElem_concat_length rfl, List.getD_eq_default _ _ (Nat.le_refl _)]
  · rw [List.getElem_append_left (by omega), List.getD_eq_getElem _ _ (by omega)]

theorem length_printed_le (text : List (BitVec 8)) (n : Nat) :
    (printed text n).length ≤ text.length + 1 := by
  rw [printed, List.length_take, List.length_append]
  exact Nat.min_le_right _ _

theorem vgaStringEntry_draws (st : Pen × Screen) (h : Draws s t st.2) (hr : Ready s) (hs : Holds s string text)
    (hpen : PenAt posx posy st.1) (hst : st.2.layout.StringAt (Screen.place st))
    (fg bg : VgaColorValue) (length : BitVec 32) :
    Returns (vgaStringEntry fg bg string length posx posy) t fun _ u =>
      Draws s u ((printed text length.toNat).foldl (Screen.stringChar fg bg) st).2 := by
  have hshort := hs.bytes.short
  rw [vgaStringEntry, returns_bind, returns_load8]
  have hfirst : t.mem (phys (string + 0)) = text.getD 0 0 :=
    (h.holds hs).bytes 0 (Nat.zero_le _)
  rw [hfirst]
  -- after `i` characters the rest of the string is still to be printed
  refine returns_iterate (fun k l u => ∃ (i : Nat) (cur : Pen × Screen),
    i + k = text.length ∧ l.index = BitVec.ofNat 64 i ∧ l.c = text.getD i 0 ∧
    PenAt l.posx l.posy cur.1 ∧ Draws s u cur.2 ∧ cur.2.layout.StringAt (Screen.place cur) ∧
    ((printed text length.toNat).drop i).foldl (Screen.stringChar fg bg) cur =
      (printed text length.toNat).foldl (Screen.stringChar fg bg) st)
    ?_ loopBound text.length _ _ hshort
    ⟨0, st, Nat.zero_add _, rfl, rfl, hpen, h.read _ _, hst, by rw [List.drop_zero]⟩
  intro k l u hI
  obtain ⟨i, cur, hk, hindex, hc, hpen, hu, hst, hfold⟩ := hI
  have hcheck : l.index < length.setWidth 64 ↔ i < length.toNat := by
    have hlen := length.isLt
    rw [BitVec.lt_def, hindex, BitVec.toNat_ofNat, BitVec.toNat_setWidth]
    omega
  by_cases hlt : i < length.toNat
  · rw [drop_printed hlt (by omega), List.foldl_cons, ← hc] at hfold
    have hl := hu.sound hr
    rw [if_pos (hcheck.mpr hlt)]
    refine stringStep_draws hu hr hpen hst fg bg l.c ?_ ?_
    · intro hnul v hv
      have hend : i = text.length := by
        by_contra hne
        rw [hnul, List.getD_eq_getElem _ _ (by omega)] at hc
        exact hs.bytes.visible _ (List.getElem_mem (by omega)) hc.symm
      rw [List.drop_eq_nil_of_le (by have := length_printed_le text length.toNat; omega)] at hfold
      rw [← hfold]
      exact hv
    · intro hne v x y hv hpen'
      have hmore : i < text.length := by
        by_contra hge
        rw [List.getD_eq_default _ _ (by omega)] at hc
        exact hne hc
      have hnext : string + (l.index + 1) = string + BitVec.ofNat 64 (i + 1) := by
        rw [hindex, BitVec.ofNat_add]
        rfl
      obtain ⟨hlayout, hplace⟩ := Screen.stringChar_place fg bg cur l.c
      have hst' := Layout.stringLetter_stringAt hl l.c (Layout.stringScroll_atCell hl hst)
      rw [hnext, returns_bind, returns_load8, (hv.holds hs).bytes (i + 1) (by omega), returns_pure]
      refine ⟨k - 1, by omega, i + 1, _, by omega, ?_, rfl, hpen', hv.read _ _, ?_, hfold⟩
      · rw [hindex, BitVec.ofNat_add]
        rfl
      · rw [hlayout, hplace]
        exact hst'
  · rw [if_neg (fun hc => hlt (hcheck.mp hc)), returns_pure, ← hfold, List.drop_eq_nil_of_le]
    · exact hu
    · rw [printed, List.length_take]
      omega

/-- A string from the position of the context on. -/
theorem stringHere_draws (h : Draws s t scr) (hr : Ready s) (hs : Holds s string text)
    (hcol : scr.spot.col ≤ scr.layout.width) (fg bg : VgaColorValue) (length : BitVec 32) :
    Returns (vgaStringEntry fg bg string length (t.statics.currentCol.setWidth 32)
      (t.statics.currentRow.setWidth 32)) t fun _ u =>
        Draws s u (scr.stringEntry fg bg (printed text length.toNat)) := by
  have hrow : scr.spot.row < 65536 := by
    rw [← h.row]
    exact t.statics.currentRow.isLt
  have hpen : PenAt (t.statics.currentCol.setWidth 32) (t.statics.currentRow.setWidth 32)
      ⟨scr.spot.col, scr.spot.row⟩ := by
    refine ⟨?_, ?_⟩
    · rw [toNat_le_setWidth, h.col]
    · rw [toNat_le_setWidth, h.row]
  exact vgaStringEntry_draws (⟨scr.spot.col, scr.spot.row⟩, scr) h hr hs hpen
    ⟨hcol, hrow, hcol⟩ fg bg length

theorem vgaPrintln_draws (h : Draws s t scr) (hr : Ready s) (hs : Holds s string text)
    (hcol : scr.spot.col ≤ scr.layout.width) (fg bg : VgaColorValue) (length : BitVec 32) :
    Returns (vgaPrintln fg bg string length) t fun _ u =>
      Draws s u (scr.println fg bg (printed text length.toNat)) := by
  rw [vgaPrintln, returns_bind, returns_getStatics, Screen.println]
  apply (stringHere_draws h hr hs hcol fg bg length).bind
  intro _ t1 h1
  generalize scr.stringEntry fg bg (printed text length.toNat) = next at h1 ⊢
  have hl := h1.sound hr
  have h2 := h1.moveTo (t1.statics.currentRow + 1) 0
  rw [toNat_succ_row, h1.row] at h2
  rw [returns_bind, returns_modifyStatics]
  apply (scrollRow_draws h2 hr).bind
  intro _ t3 h3
  refine moveCursorHere_draws h3 hr ?_
  intro _
  have hrow : (next.moveTo next.spot.nextRow).settle.spot.row < next.layout.height := by
    rw [Screen.settle_spot]
    exact Layout.settle_row_lt hl
  have hzero : (next.moveTo next.spot.nextRow).settle.spot.col < next.layout.width := by
    rw [Screen.settle_spot]
    refine Nat.lt_of_le_of_lt Layout.settle_col_le ?_
    show 0 < next.layout.width
    have hwidth := hl.width
    omega
  rw [Screen.settle_layout]
  exact ⟨hrow, Layout.Sound.cell_lt hzero hrow⟩

theorem Draws.reads {u : Machine VgaContext} (h : Draws s t scr) (hm : u.mem = t.mem)
    (hu : u.statics = t.statics) (hrec : Records IsRead t u) : Draws s u scr := by
  refine h.setBytes hu (by rw [hm, ← h.shows]; rfl) (fun x _ => by rw [hm]) (hrec.mono ?_)
  rintro e ⟨a, n, rfl⟩
  trivial

theorem stringLength_draws (h : Draws s t scr) (hs : Holds s string text) :
    Returns (stringLength string) t fun r u =>
      r.setWidth 32 = BitVec.ofNat 32 text.length ∧ Draws s u scr := by
  rw [stringLength]
  apply (kiGetStringLength_reads (h.holds hs)).bind
  intro r u hu
  obtain ⟨rfl, hm, hside, hrec⟩ := hu
  rw [returns_pure]
  refine ⟨?_, h.reads hm hside.1 (hrec.mono fun _ => LoadsFrom.isRead)⟩
  have hshort := hs.bytes.short
  apply BitVec.eq_of_toNat_eq
  show ((BitVec.ofNat 64 text.length).setWidth 32).toNat = _
  rw [BitVec.toNat_setWidth, BitVec.toNat_ofNat, BitVec.toNat_ofNat]
  omega

/-- The characters that `VgaAutoPrint` and `VgaAutoPrintln` print: the length is
passed on in 32 bits. -/
def autoPrinted (text : List (BitVec 8)) : List (BitVec 8) := printed text (text.length % 2 ^ 32)

theorem toNat_stringLength (text : List (BitVec 8)) :
    printed text (BitVec.ofNat 32 text.length).toNat = autoPrinted text := by
  rw [BitVec.toNat_ofNat]
  rfl

theorem vgaAutoPrintln_draws (h : Draws s t scr) (hr : Ready s) (hs : Holds s string text)
    (hcol : scr.spot.col ≤ scr.layout.width) (fg bg : VgaColorValue) :
    Returns (vgaAutoPrintln fg bg string) t fun _ u =>
      Draws s u (scr.println fg bg (autoPrinted text)) := by
  rw [vgaAutoPrintln]
  apply (stringLength_draws h hs).bind
  intro r t1 h1
  obtain ⟨hr1, h1⟩ := h1
  rw [hr1, ← toNat_stringLength]
  exact vgaPrintln_draws h1 hr hs hcol fg bg _

/-- `VgaAutoPrint` up to its move of the cursor. -/
theorem vgaAutoPrint_text (h : Draws s t scr) (hr : Ready s) (hs : Holds s string text)
    (hcol : scr.spot.col ≤ scr.layout.width) (fg bg : VgaColorValue)
    {Q : Unit → Machine VgaContext → Prop}
    (hQ : ∀ u, Draws s u (scr.stringEntry fg bg (autoPrinted text)).stepCol →
      Returns moveCursorHere u Q) : Returns (vgaAutoPrint fg bg string) t Q := by
  rw [vgaAutoPrint]
  apply (stringLength_draws h hs).bind
  intro r t1 h1
  obtain ⟨hr1, h1⟩ := h1
  rw [hr1, returns_bind, returns_getStatics]
  apply (stringHere_draws h1 hr hs hcol fg bg _).bind
  intro _ t2 h2
  rw [toNat_stringLength] at h2
  have hl := h2.sound hr
  have hnext : (t2.statics.currentCol + 1).toNat =
      (scr.stringEntry fg bg (autoPrinted text)).spot.col + 1 := by
    have hrow : scr.spot.row < 65536 := by
      rw [← h.row]
      exact t.statics.currentRow.isLt
    have hle := Layout.stringEntry_col_le (h.sound hr) hcol hrow (autoPrinted text)
    have hsmall := hl.cells_small
    have hwidth := hl.width_le
    rw [Screen.stringEntry_layout] at hsmall hwidth
    rw [toNat_succ_row, h2.col, Screen.stringEntry_spot]
    omega
  have hlast := h2.moveTo t2.statics.currentRow (t2.statics.currentCol + 1)
  rw [hnext, h2.row] at hlast
  rw [returns_bind, returns_modifyStatics]
  exact hQ _ hlast

theorem vgaAutoPrint_draws (h : Draws s t scr) (hr : Ready s) (hs : Holds s string text)
    (hcol : scr.spot.col ≤ scr.layout.width) (fg bg : VgaColorValue)
    (hcell : scr.layout.cursorEnabled = true →
      let p := scr.layout.stringEntry scr.spot (autoPrinted text)
      p.row < scr.layout.height ∧
        p.col + 1 + p.row * scr.layout.width < scr.layout.width * scr.layout.height) :
    Returns (vgaAutoPrint fg bg string) t fun _ u =>
      Draws s u (scr.autoPrint fg bg (autoPrinted text)) := by
  refine vgaAutoPrint_text h hr hs hcol fg bg ?_
  intro u hu
  refine moveCursorHere_draws hu hr ?_
  rw [Screen.stepCol, Screen.moveTo_layout, Screen.moveTo_spot, Screen.stringEntry_layout,
    Screen.stringEntry_spot]
  exact hcell

end Strings

end FeralKernel
