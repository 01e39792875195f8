import FeralKernel.Console.PrintRun
import FeralKernel.Console.SwapBuffers
import FeralKernel.Console.Terminal
import FeralKernel.Console.Visible
import FeralKernel.Library.Focus

/-!
# Printing on the screen

`KiUpdateFirmwareFunctions` installs the table through which the print functions of
`kern/lib/kernel_printfuncs.c` leave.  The VGA functions that `kern/entry/mb2entry.c` installs
are a console, so that `KiPrintFmt` shows the tokens of its format.
-/

namespace FeralKernel

open Verif.Program Verif.Bytes

/-! ## The VGA functions -/

/-- `InternalPutChar`. -/
def internalPutChar (c : BitVec 8) : Kern VgaContext Unit := vgaPutChar c

/-- `InternalVgaPrintln`. -/
def internalVgaPrintln (string : Ptr) (length : BitVec 64) : Kern VgaContext Unit :=
  vgaPrintln vgaWhite vgaBlack string (length.setWidth 32)

/-- What a call reaches when the functions of `mb2entry.c` are installed. -/
def vgaCall : ConsoleCall → Kern VgaContext Unit
  | .putChar c => internalPutChar c
  | .println string length => internalVgaPrintln string length
  | .vgaPutChar c => vgaPutChar c

/-- What a call makes of the screen.  The lines are empty ones. -/
def ConsoleCall.draw : ConsoleCall → Screen → Screen
  | .putChar c, scr => scr.putChar c
  | .println _ _, scr => scr.println vgaWhite vgaBlack []
  | .vgaPutChar c, scr => scr.putChar c

/-- The bytes of a screen. -/
def OnBytes (b : Ptr) (n : Nat) (a : Nat) : Prop := phys b ≤ a ∧ a < phys b + n

/-- A console on the `n` bytes from `b` on. -/
structure ShowsAt (b : Ptr) (n : Nat) (s : Machine VgaContext) (scr : Screen) : Prop
    extends ShowsScreen s scr where
  buffer : s.statics.swappedBuffer = b
  size : s.statics.screenBytes = n

namespace ShowsAt

variable {b : Ptr} {n : Nat} {s t : Machine VgaContext} {scr scr' : Screen}

theorem draws (h : ShowsAt b n s scr) {drawn : Screen} (hd : Draws s t drawn)
    (hlike : drawn.Alike scr') (hspot : OnScreen scr'.layout scr'.spot) :
    ShowsAt b n t scr' ∧ ∀ a, ¬ OnBytes b n a → t.mem a = s.mem a := by
  have hlayout : t.statics.layout = s.statics.layout := by rw [hd.statics_layout, hd.layout]
  refine ⟨⟨h.toShowsScreen.draws hd hlike hspot, ?_, ?_⟩, fun a ha => ?_⟩
  · rw [hd.buffer, h.buffer]
  · rw [VgaContext.screenBytes, hlayout]
    exact h.size
  · refine hd.outside a ?_
    rw [h.buffer, h.size]
    unfold OnBytes at ha
    omega

/-- The position of the console is where the screen says. -/
theorem onScreen (h : ShowsAt b n s scr) : OnScreen (shown s).layout (shown s).spot := by
  rw [← h.alike.layout, ← h.alike.spot]
  exact h.spot

theorem putChar (h : ShowsAt b n s scr) (c : BitVec 8) :
    Returns (vgaPutChar c) s fun _ t => ShowsAt b n t (scr.putChar c) ∧
      ∀ a, ¬ OnBytes b n a → t.mem a = s.mem a := by
  refine (vgaPutChar_draws (Draws.refl s) h.ready c).mono fun _ t ht => ?_
  refine h.draws ht (h.alike.putChar h.ready.sound c) ?_
  rw [Screen.putChar_layout, Screen.putChar_spot]
  exact Layout.putChar_onScreen h.sound

theorem backspace (h : ShowsAt b n s scr) :
    Returns internalVgaBackspace s fun _ t => ShowsAt b n t scr.backspace ∧
      ∀ a, ¬ OnBytes b n a → t.mem a = s.mem a := by
  refine (internalVgaBackspace_draws (Draws.refl s) h.ready h.onScreen).mono fun _ t ht => ?_
  exact h.draws ht (h.alike.backspace h.ready.sound) (backspace_onScreen h.sound h.spot)

theorem println (h : ShowsAt b n s scr) {string : Ptr} {text : List (BitVec 8)}
    (hs : CString s.mem string text)
    (hclear : ∀ k, k ≤ text.length → ¬ OnBytes b n (phys (string + BitVec.ofNat 64 k)))
    (fg bg : VgaColorValue) (length : BitVec 32) :
    Returns (vgaPrintln fg bg string length) s fun _ t =>
      ShowsAt b n t (scr.println fg bg (printed text length.toNat)) ∧
      ∀ a, ¬ OnBytes b n a → t.mem a = s.mem a := by
  have hheld : Holds s string text := by
    refine ⟨hs, fun k hk => ?_⟩
    have hk' := hclear k hk
    rw [h.buffer, h.size]
    unfold OnBytes at hk'
    omega
  refine (vgaPrintln_draws (Draws.refl s) h.ready hheld h.onScreen.col fg bg length).mono
    fun _ t ht => ?_
  exact h.draws ht (h.alike.println h.ready.sound fg bg _) (println_onScreen h.sound fg bg _)

theorem congr (h : ShowsAt b n s scr) (hstat : t.statics = s.statics)
    (hmem : ∀ a, OnBytes b n a → t.mem a = s.mem a) : ShowsAt b n t scr := by
  refine ⟨h.toShowsScreen.congr hstat fun x h1 h2 => ?_, by rw [hstat]; exact h.buffer,
    by rw [hstat]; exact h.size⟩
  rw [h.buffer] at h1 h2
  rw [h.size] at h2
  exact hmem x ⟨h1, h2⟩

end ShowsAt

/-- A part of the static variables as a part of the machine. -/
def machinePart {σ τ : Type} (l : Part σ τ) : Part (Machine σ) (Machine τ) where
  get s := { mem := s.mem, log := s.log, statics := l.get s.statics }
  set s v := { mem := v.mem, log := v.log, statics := l.set s.statics v.statics }
  get_set s v := by rw [l.get_set]
  set_get s := by rw [l.set_get]
  set_set s v w := by rw [l.set_set]

section Vga

variable {σ υ : Type} (l : Part σ VgaContext)

/-- The VGA console as a part of the kernel.  Where its front buffer is may be among what is
kept. -/
def vgaConsole (kept : σ → υ)
    (hkept : ∀ k v, v.framebuffer = (l.get k).framebuffer → kept (l.set k v) = kept k) (b : Ptr)
    (n : Nat) : Console σ Screen υ where
  call c := focus (machinePart l) (vgaCall c)
  shows s scr := ShowsAt b n ((machinePart l).get s) scr
  own := OnBytes b n
  draw := ConsoleCall.draw
  kept := kept
  silent := False
  char_spec c hc h := by
    rw [returns_focus]
    cases c with
    | println string length => exact absurd rfl (hc string length)
    | putChar c =>
      refine ((vgaPutChar_settings c).returns (h.putChar c)).mono fun _ v hv => ?_
      rw [(machinePart l).get_set]
      exact ⟨hv.1.1, hv.1.2, hkept _ _ (VgaContext.front_of_settings hv.2), False.elim⟩
    | vgaPutChar c =>
      refine ((vgaPutChar_settings c).returns (h.putChar c)).mono fun _ v hv => ?_
      rw [(machinePart l).get_set]
      exact ⟨hv.1.1, hv.1.2, hkept _ _ (VgaContext.front_of_settings hv.2), False.elim⟩
  line_spec {s scr string} hs hown h := by
    have hclear : ∀ k, k ≤ ([] : List (BitVec 8)).length →
        ¬ OnBytes b n (phys (string + BitVec.ofNat 64 k)) := by
      intro k hk
      rw [Nat.le_zero.mp hk]
      rw [show string + BitVec.ofNat 64 0 = string from BitVec.add_zero _]
      exact hown
    rw [returns_focus]
    refine ((vgaPrintln_settings _ _ _ _).returns (h.println hs hclear vgaWhite vgaBlack _)).mono
      fun _ v hv => ?_
    rw [(machinePart l).get_set]
    exact ⟨hv.1.1, hv.1.2, hkept _ _ (VgaContext.front_of_settings hv.2), False.elim⟩
  congr h hstat hmem := h.congr (congrArg l.get hstat) hmem

variable {l} {b : Ptr} {n : Nat} {s : Machine σ} {scr : Screen} {literal : String → Ptr}
  {buf fmt : Ptr} {args : Nat → BitVec 64} {text : List (BitVec 8)} {values : List FmtValue}

/-- What `KiPrintFmt` is given, with nothing of it on the bytes of the screen. -/
structure BesideScreen (b : Ptr) (n : Nat) (m : Mem) (literal : String → Ptr) (buf fmt : Ptr)
    (args : Nat → BitVec 64) (text : List (BitVec 8)) (values : List FmtValue) : Prop
    extends FmtInput m literal buf fmt args text values where
  bufClear : ∀ a, OnBytes b n a → ¬ InBuffer buf a
  fmtClear : ∀ k, k ≤ text.length → ¬ OnBytes b n (phys (fmt + BitVec.ofNat 64 k))
  literalsClear : ∀ name ∈ ["", " ", "%"], ∀ k, k ≤ (chars name).length →
    ¬ OnBytes b n (phys (literal name + BitVec.ofNat 64 k))
  slotsClear : ∀ (k : Nat) (t : List (BitVec 8)), values[k]? = some (.string t) →
    ∀ j, j ≤ t.length → ¬ OnBytes b n (phys (args k + BitVec.ofNat 64 j))

theorem kiPrintFmt_draws (hs : ShowsAt b n ((machinePart l).get s) scr)
    (h : BesideScreen b n s.mem literal buf fmt args text values)
    (hcut : ∀ c, FmtToken.cut c ∉ fmtTokens false text)
    (hkinds : FmtSuffices (fmtTokens false text) values) :
    Returns (kiPrintFmtWith (fun c => focus (machinePart l) (vgaCall c)) literal buf fmt args) s
      fun status t => status = .success ∧
        ShowsAt b n ((machinePart l).get t) ((tokenCalls (literal "") (fmtTokens false text)
          values).foldl (fun scr c => c.draw scr) scr) ∧
        (∀ a, ¬ OnBytes b n a → ¬ InBuffer buf a → t.mem a = s.mem a) ∧
        (l.get t.statics).framebuffer = (l.get s.statics).framebuffer ∧
        t.statics = l.set s.statics (l.get t.statics) := by
  have hkept : ∀ k v, v.framebuffer = (l.get k).framebuffer →
      ((l.get (l.set k v)).framebuffer, l.set (l.set k v) (l.get s.statics)) =
        ((l.get k).framebuffer, l.set k (l.get s.statics)) := by
    intro k v hv
    rw [l.get_set, l.set_set, hv]
  have hrun := Console.kiPrintFmtWith_tokens
    (C := vgaConsole l (fun k => ((l.get k).framebuffer, l.set k (l.get s.statics))) hkept b n) hs
    ⟨h.toFmtInput, h.bufClear, h.fmtClear, h.literalsClear, h.slotsClear⟩ hcut hkinds
  refine hrun.mono fun status t ht => ?_
  obtain ⟨hst, hdrew, -⟩ := ht
  have hboth := Prod.mk.inj hdrew.kept
  refine ⟨hst, hdrew.shows, hdrew.mem, hboth.1, ?_⟩
  have hsame : l.set t.statics (l.get s.statics) = l.set s.statics (l.get s.statics) := hboth.2
  rw [l.set_get] at hsame
  calc t.statics = l.set t.statics (l.get t.statics) := (l.set_get _).symm
    _ = l.set (l.set t.statics (l.get s.statics)) (l.get t.statics) := (l.set_set _ _ _).symm
    _ = l.set s.statics (l.get t.statics) := by rw [hsame]

/-- `KiPrintFmt` on the VGA console shows what the tokens of its format print, and changes
nothing beside the screen, the position and its own buffer. -/
theorem kiPrintFmt_shows (hs : ShowsAt b n ((machinePart l).get s) scr)
    (h : BesideScreen b n s.mem literal buf fmt args text values)
    (hcut : ∀ c, FmtToken.cut c ∉ fmtTokens false text)
    (hkinds : FmtSuffices (fmtTokens false text) values) :
    Returns (kiPrintFmtWith (fun c => focus (machinePart l) (vgaCall c)) literal buf fmt args) s
      fun status t => status = .success ∧
        ShowsAt b n ((machinePart l).get t) ((tokenCalls (literal "") (fmtTokens false text)
          values).foldl (fun scr c => c.draw scr) scr) ∧
        (∀ a, ¬ OnBytes b n a → ¬ InBuffer buf a → t.mem a = s.mem a) ∧
        t.statics = l.set s.statics (l.get t.statics) := by
  refine (kiPrintFmt_draws hs h hcut hkinds).mono fun status t ht => ?_
  obtain ⟨hst, hshows, hm, -, hstat⟩ := ht
  exact ⟨hst, hshows, hm, hstat⟩

end Vga

/-! ## A message -/

/-- The static variables of the console alone. -/
def wholePart (σ : Type) : Part σ σ where
  get s := s
  set _ v := v
  get_set _ _ := rfl
  set_get _ := rfl
  set_set _ _ _ := rfl

/-- A console in text mode, and the strings of a call `KiPrintFmt("%s: %i%%\n", "ok", -5)`. -/
def messageMachine : Machine VgaContext := { typingMachine with mem := fmtMachine.mem }

theorem messageMachine_shows :
    ShowsAt (kernPhysToVirt 0xB8000) 4000 messageMachine (shown messageMachine) := by
  have hready : Ready messageMachine :=
    ⟨typingMachine_ready.sound, typingMachine_ready.spans, typingMachine_ready.nonnull⟩
  exact ⟨⟨hready, Screen.Alike.refl _, by decide, by decide⟩, rfl, rfl⟩

theorem messageMachine_input : BesideScreen (kernPhysToVirt 0xB8000) 4000 messageMachine.mem
    fmtLiteral 0x4000 0x2000 fmtArgs (chars "%s: %i%%\n") [.string (chars "ok"), .int32 (-5)] := by
  have hscreen : phys (kernPhysToVirt 0xB8000) = 0xB8000 := by decide
  have hlow : ∀ {a : Ptr} {k : Nat}, a.toNat ≤ 0x4000 → k ≤ 0x100 →
      ¬ OnBytes (kernPhysToVirt 0xB8000) 4000 (phys (a + BitVec.ofNat 64 k)) := by
    intro a k ha hk
    rw [OnBytes, hscreen, phys_low (by omega) (by omega)]
    omega
  refine ⟨fmtMachine_input, fun a ha hin => ?_, fun k hk => ?_, fun name hname k hk => ?_,
    fun k t hv j hj => ?_⟩
  · have hbuf : phys 0x4000 = 0x4000 := by decide
    rw [OnBytes, hscreen] at ha
    rw [InBuffer, hbuf] at hin
    omega
  · exact hlow (by decide) (Nat.le_trans hk (by decide))
  · have hall : ∀ name ∈ ["", " ", "%"], (chars name).length ≤ 1 ∧
        (fmtLiteral name).toNat ≤ 0x4000 := by decide
    obtain ⟨hlen, haddr⟩ := hall name hname
    exact hlow haddr (by omega)
  · cases k with
    | zero =>
      cases hv
      exact hlow (by decide) (Nat.le_trans hj (by decide))
    | succ k => cases k <;> cases hv

theorem kiPrintFmt_shows_ok :
    Returns (kiPrintFmtWith (fun c => focus (machinePart (wholePart VgaContext)) (vgaCall c))
      fmtLiteral 0x4000 0x2000 fmtArgs) messageMachine fun status t => status = .success ∧
        ShowsAt (kernPhysToVirt 0xB8000) 4000 t
          ((tokenCalls 0x1000 (fmtTokens false (chars "%s: %i%%\n"))
            [.string (chars "ok"), .int32 (-5)]).foldl (fun scr c => c.draw scr)
            (shown messageMachine)) := by
  refine (kiPrintFmt_shows (l := wholePart VgaContext) messageMachine_shows messageMachine_input
    (by decide) (by unfold FmtSuffices; decide)).mono fun status t ht => ⟨ht.1, ht.2.1⟩

end FeralKernel
