import FeralKernel.Console.Screen
import FeralKernel.Console.Draw
import FeralKernel.Library.Keeps

/-!
# Bringing the back buffer to the front

`VgaSwapBuffers` of `kern/arch/x86_64/vga/vga_driver.c`, which the timer calls.  The routines
draw on `SwappedBuffer` and this one copies it to `Framebuffer`, four cells at a time and
without the one to three that are left over.  None of the routines changes where the two are, nor
anything else of the context than the position.
-/

namespace FeralKernel

open Verif.Program Verif.Bytes

/-! ## The copy -/

def vgaSwapBuffers : Kern VgaContext Unit := do
  let ctx ← getStatics
  let screenSize : BitVec 64 :=
    (ctx.screenWidth.setWidth 32 * ctx.screenHeight.setWidth 32 : BitVec 32).signExtend 64
  forRange (fun offset _ => do
    let ctx ← getStatics
    let cells ← load64 (ctx.swappedBuffer + 8 * BitVec.ofNat 64 offset)
    store64 (ctx.framebuffer + 8 * BitVec.ofNat 64 offset) cells) (screenSize >>> 2).toNat 0 ()

/-- The bytes that are copied. -/
def VgaContext.swappedBytes (ctx : VgaContext) : Nat :=
  8 * (ctx.layout.width * ctx.layout.height / 4)

theorem VgaContext.swappedBytes_le (ctx : VgaContext) : ctx.swappedBytes ≤ ctx.screenBytes := by
  unfold swappedBytes screenBytes
  omega

section Swap

variable {s : Machine VgaContext}

theorem swapRounds (hl : s.statics.layout.Sound) :
    ((s.statics.screenWidth.setWidth 32 * s.statics.screenHeight.setWidth 32 : BitVec 32).signExtend
      64 >>> 2).toNat = s.statics.layout.width * s.statics.layout.height / 4 := by
  have hsmall := hl.cells_small
  have hcells : (s.statics.screenWidth.setWidth 32 * s.statics.screenHeight.setWidth 32 :
      BitVec 32).toNat = s.statics.layout.width * s.statics.layout.height := by
    rw [BitVec.toNat_mul, toNat_le_setWidth, toNat_le_setWidth]
    exact Nat.mod_eq_of_lt (by simp only [VgaContext.layout] at hsmall; omega)
  rw [signExtend_small hcells (by omega), BitVec.toNat_ushiftRight, BitVec.toNat_ofNat,
    Nat.shiftRight_eq_div_pow, Nat.mod_eq_of_lt (by omega)]

/-- The front buffer gets the cells of the back buffer, if it does not lie across its end. -/
theorem vgaSwapBuffers_copies (hl : s.statics.layout.Sound)
    (hback : Spans s.statics.swappedBuffer s.statics.screenBytes)
    (hfront : Spans s.statics.framebuffer s.statics.screenBytes)
    (hover : phys s.statics.framebuffer ≤ phys s.statics.swappedBuffer ∨
      phys s.statics.swappedBuffer + s.statics.screenBytes ≤ phys s.statics.framebuffer) :
    Returns vgaSwapBuffers s fun _ t =>
      t.mem = copy s.mem (phys s.statics.framebuffer) (phys s.statics.swappedBuffer)
        s.statics.swappedBytes ∧ t.statics = s.statics := by
  have hbytes := s.statics.swappedBytes_le
  rw [VgaContext.swappedBytes] at hbytes ⊢
  rw [vgaSwapBuffers, returns_bind, returns_getStatics]
  dsimp only
  rw [swapRounds hl]
  refine returns_forRange (fun i _ t =>
    t.mem = copy s.mem (phys s.statics.framebuffer) (phys s.statics.swappedBuffer) (8 * i) ∧
      t.statics = s.statics) _ (fun i _ t hi hI => ?_) _ 0 () s (Nat.zero_add _)
    ⟨(copy_zero _ _ _).symm, rfl⟩
  obtain ⟨hm, hstat⟩ := hI
  have hoff : (8 : Ptr) * BitVec.ofNat 64 i = BitVec.ofNat 64 (8 * i) := by
    apply BitVec.eq_of_toNat_eq
    simp [BitVec.toNat_mul, BitVec.toNat_ofNat]
  simp only [returns_bind, returns_getStatics, returns_load64, returns_store64, Machine.note_mem,
    Machine.note_statics, Machine.setMem_mem, Machine.setMem_statics, hstat, hoff, hm,
    phys_add hback (show 8 * i < s.statics.screenBytes by omega),
    phys_add hfront (show 8 * i < s.statics.screenBytes by omega)]
  refine ⟨?_, trivial⟩
  rw [write64_copy _ (hover.imp_right fun h => by omega), Nat.mul_add]

/-- On a single buffer nothing happens. -/
theorem vgaSwapBuffers_single (hl : s.statics.layout.Sound)
    (hback : Spans s.statics.swappedBuffer s.statics.screenBytes)
    (hsingle : s.statics.framebuffer = s.statics.swappedBuffer) :
    Returns vgaSwapBuffers s fun _ t => t.mem = s.mem ∧ t.statics = s.statics := by
  have hrun := vgaSwapBuffers_copies hl hback (by rw [hsingle]; exact hback)
    (Or.inl (by rw [hsingle]))
  refine hrun.mono fun _ t ht => ⟨?_, ht.2⟩
  rw [ht.1, hsingle, copy_self]

end Swap

/-! ## What the routines never set -/

/-- The context without the position: the two buffers, the size, the colours and the modes. -/
def VgaContext.settings (ctx : VgaContext) : VgaContext :=
  { ctx with currentRow := 0, currentCol := 0 }

theorem VgaContext.front_of_settings {ctx ctx' : VgaContext} (h : ctx.settings = ctx'.settings) :
    ctx.framebuffer = ctx'.framebuffer :=
  show ctx.settings.framebuffer = ctx'.settings.framebuffer by rw [h]

theorem VgaContext.colours_of_settings {ctx ctx' : VgaContext} (h : ctx.settings = ctx'.settings) :
    ctx.highlight = ctx'.highlight ∧ ctx.background = ctx'.background :=
  ⟨show ctx.settings.highlight = ctx'.settings.highlight by rw [h],
    show ctx.settings.background = ctx'.settings.background by rw [h]⟩

/-- The code sets nothing of the context but the position. -/
def KeepsSettings {α : Type} (x : Kern VgaContext α) : Prop :=
  Keeps (fun s : Machine VgaContext => s.statics.settings) x

section KeepsSettings

variable {α β : Type}

theorem settings_of_statics {x : Kern VgaContext α} (h : KeepsStatics x) : KeepsSettings x :=
  fun s => (h s).mono fun _ _ ht => congrArg VgaContext.settings ht

theorem settings_modify {f : VgaContext → VgaContext}
    (hf : ∀ ctx, (f ctx).settings = ctx.settings) : KeepsSettings (modifyStatics f) :=
  Keeps.of_returns fun s => returns_modifyStatics.mpr (hf s.statics)

/-- The context that has been read is the one that is there. -/
theorem settings_getStatics_bind {g : VgaContext → Kern VgaContext β}
    (hg : ∀ s, Ensures (g s.statics) s fun _ t => t.statics.settings = s.statics.settings) :
    KeepsSettings (getStatics >>= g) := by
  intro s
  have hread : Returns getStatics s fun ctx t => ctx = s.statics ∧ t = s :=
    returns_getStatics.mpr ⟨rfl, rfl⟩
  refine hread.ensures.bind fun ctx t ht => ?_
  rw [ht.1, ht.2]
  exact hg s

theorem settings_getStatics {g : VgaContext → Kern VgaContext β}
    (hg : ∀ ctx, KeepsSettings (g ctx)) : KeepsSettings (getStatics >>= g) :=
  settings_getStatics_bind fun s => hg s.statics s

/-- A context that is stored with the settings it was read with. -/
theorem settings_setStatics {v : VgaContext} {s : Machine VgaContext} {x : Kern VgaContext β}
    (hv : v.settings = s.statics.settings) (hx : KeepsSettings x) :
    Ensures (setStatics v >>= fun _ => x) s fun _ t =>
      t.statics.settings = s.statics.settings := by
  have hset : Returns (setStatics v) s fun _ t => t.statics.settings = s.statics.settings :=
    returns_setStatics.mpr hv
  refine hset.ensures.bind fun _ t ht => ?_
  exact (hx t).mono fun _ u hu => hu.trans ht

end KeepsSettings

theorem internalVgaPushUpWith_settings {moveCursor : BitVec 32 → BitVec 32 → Kern VgaContext Unit}
    (h : ∀ x y, KeepsSettings (moveCursor x y)) :
    KeepsSettings (internalVgaPushUpWith moveCursor) :=
  settings_getStatics fun _ => .bind (settings_of_statics (kiCopyMemory_keeps _ _ _)) fun _ =>
    .bind (settings_of_statics (kiSetMemoryBytes_keeps _ _ _)) fun _ => h _ _

theorem vgaMoveCursorWith_settings {entry : VgaColorValue → VgaColorValue → BitVec 8 → BitVec 32 →
    BitVec 32 → Kern VgaContext Unit} (h : ∀ fg bg c x y, KeepsSettings (entry fg bg c x y))
    (x y : BitVec 32) : KeepsSettings (vgaMoveCursorWith entry x y) :=
  settings_getStatics fun _ => .onlyIf (h _ _ _ _ _)

theorem vgaEntryWith_settings {pushUp : Kern VgaContext Unit} (h : KeepsSettings pushUp)
    (fg bg : VgaColorValue) (c : BitVec 8) (x y : BitVec 32) :
    KeepsSettings (vgaEntryWith pushUp fg bg c x y) :=
  settings_getStatics fun _ => .bind (.onlyIf h) fun _ => settings_getStatics fun _ =>
    .bind (settings_of_statics (.store8 _ _)) fun _ =>
      .bind (settings_of_statics (.store8 _ _)) fun _ => settings_modify fun _ => rfl

theorem vgaEntryWithin_settings (depth : Nat) : ∀ fg bg c x y,
    KeepsSettings (vgaEntryWithin depth fg bg c x y) := by
  induction depth with
  | zero =>
    intro fg bg c x y
    exact .stop _
  | succ depth ih =>
    intro fg bg c x y
    exact vgaEntryWith_settings
      (internalVgaPushUpWith_settings (vgaMoveCursorWith_settings ih)) _ _ _ _ _

theorem vgaEntry_settings (fg bg : VgaColorValue) (c : BitVec 8) (x y : BitVec 32) :
    KeepsSettings (vgaEntry fg bg c x y) := vgaEntryWithin_settings _ _ _ _ _ _

theorem vgaMoveCursor_settings (x y : BitVec 32) : KeepsSettings (vgaMoveCursor x y) :=
  vgaMoveCursorWith_settings vgaEntry_settings x y

theorem internalVgaPushUp_settings : KeepsSettings internalVgaPushUp :=
  internalVgaPushUpWith_settings vgaMoveCursor_settings

theorem wrapColumn_settings : KeepsSettings wrapColumn := by
  refine settings_modify fun ctx => ?_
  split <;> rfl

theorem scrollRow_settings : KeepsSettings scrollRow := by
  refine settings_getStatics_bind fun s => ?_
  by_cases h : s.statics.screenHeight ≤ s.statics.currentRow
  · rw [onlyIf, if_pos h]
    exact settings_setStatics rfl internalVgaPushUp_settings
  · rw [onlyIf, if_neg h]
    exact ensures_pure.mpr rfl

theorem moveCursorHere_settings : KeepsSettings moveCursorHere :=
  settings_getStatics fun _ => vgaMoveCursor_settings _ _

theorem vgaAutoEntry_settings (fg bg : VgaColorValue) (c : BitVec 8) :
    KeepsSettings (vgaAutoEntry fg bg c) :=
  .bind wrapColumn_settings fun _ => .bind scrollRow_settings fun _ => settings_getStatics fun _ =>
    .bind (vgaEntry_settings _ _ _ _ _) fun _ => settings_modify fun _ => rfl

theorem vgaPutChar_settings (c : BitVec 8) : KeepsSettings (vgaPutChar c) :=
  settings_getStatics fun _ => .bind (vgaAutoEntry_settings _ _ _) fun _ =>
    settings_getStatics fun _ => .onlyIf (.bind wrapColumn_settings fun _ =>
      .bind scrollRow_settings fun _ => moveCursorHere_settings)

theorem internalVgaBackspace_settings : KeepsSettings internalVgaBackspace :=
  settings_getStatics fun _ => .ite (.pure _) (.bind (vgaMoveCursor_settings _ _) fun _ =>
    .bind (vgaPutChar_settings _) fun _ => vgaMoveCursor_settings _ _)

theorem stringWrap_settings (x y : BitVec 32) : KeepsSettings (stringWrap x y) := by
  refine settings_getStatics_bind fun s => ?_
  by_cases h : s.statics.screenWidth.setWidth 32 ≤ x
  · rw [if_pos h]
    exact settings_setStatics rfl (.pure _)
  · rw [if_neg h]
    exact ensures_pure.mpr rfl

theorem stringScroll_settings (y : BitVec 32) : KeepsSettings (stringScroll y) :=
  settings_getStatics fun _ => .ite (.bind internalVgaPushUp_settings fun _ => .pure _) (.pure _)

theorem stringChar_settings (fg bg : VgaColorValue) (c : BitVec 8) (x y : BitVec 32) :
    KeepsSettings (stringChar fg bg c x y) :=
  .ite (.bind (.forRange (fun _ _ => vgaPutChar_settings _) _ _ _) fun _ => .pure _)
    (.ite (.bind (settings_modify fun _ => rfl) fun _ => .pure _)
      (.ite (.pure _) (.bind (vgaEntry_settings _ _ _ _ _) fun _ => .pure _)))

theorem vgaStringEntry_settings (fg bg : VgaColorValue) (string : Ptr) (length x y : BitVec 32) :
    KeepsSettings (vgaStringEntry fg bg string length x y) := by
  refine .bind (settings_of_statics (.load8 _)) fun _ => .iterate (fun l => ?_) _ _
  refine .ite (.bind (stringWrap_settings _ _) fun _ => .bind (stringScroll_settings _) fun _ =>
    .bind (stringChar_settings _ _ _ _ _) fun r => ?_) (.pure _)
  cases r with
  | none => exact .pure _
  | some x => exact .bind (settings_of_statics (.load8 _)) fun _ => .pure _

theorem blankRow_settings (width color : BitVec 32) (h : BitVec 16) :
    KeepsSettings (blankRow width color h) :=
  .iterate (fun _ => .ite (.bind (vgaEntry_settings _ _ _ _ _) fun _ => .pure _) (.pure _)) _ _

/-- Blanking sets the background and nothing else. -/
theorem kiBlankVgaScreen_settings (height width color : BitVec 32) (s : Machine VgaContext) :
    Ensures (kiBlankVgaScreen height width color) s fun _ t =>
      t.statics.settings = { s.statics with background := color }.settings := by
  have hset : Returns (modifyStatics fun ctx : VgaContext => { ctx with background := color }) s
      fun _ t => t.statics = { s.statics with background := color } :=
    returns_modifyStatics.mpr rfl
  refine hset.ensures.bind fun _ t ht => ?_
  have hrest : KeepsSettings (iterate .hang (fun h : BitVec 16 =>
      if h.setWidth 32 < height then do
        blankRow width color h
        pure (.inr (h + 1))
      else pure (.inl ())) loopBound 0 >>= fun _ => vgaSetCurrentPosition 0 0) :=
    .bind (.iterate (fun _ => .ite (.bind (blankRow_settings _ _ _) fun _ => .pure _) (.pure _)) _ _)
      fun _ => settings_modify fun _ => rfl
  refine (hrest t).mono fun _ u hu => ?_
  exact hu.trans (congrArg VgaContext.settings ht)

theorem vgaPrintln_settings (fg bg : VgaColorValue) (string : Ptr) (length : BitVec 32) :
    KeepsSettings (vgaPrintln fg bg string length) :=
  settings_getStatics fun _ => .bind (vgaStringEntry_settings _ _ _ _ _ _) fun _ =>
    .bind (settings_modify fun _ => rfl) fun _ => .bind scrollRow_settings fun _ =>
      moveCursorHere_settings

theorem stringLength_settings (string : Ptr) : KeepsSettings (stringLength string) :=
  .bind (settings_of_statics (kiGetStringLength_keeps _)) fun _ => .pure _

theorem vgaAutoPrintln_settings (fg bg : VgaColorValue) (string : Ptr) :
    KeepsSettings (vgaAutoPrintln fg bg string) :=
  .bind (stringLength_settings _) fun _ => vgaPrintln_settings _ _ _ _

theorem vgaAutoPrint_settings (fg bg : VgaColorValue) (string : Ptr) :
    KeepsSettings (vgaAutoPrint fg bg string) :=
  .bind (stringLength_settings _) fun _ => settings_getStatics fun _ =>
    .bind (vgaStringEntry_settings _ _ _ _ _ _) fun _ =>
      .bind (settings_modify fun _ => rfl) fun _ => moveCursorHere_settings

end FeralKernel
