import FeralKernel.Lib.StringFuncs
import Mathlib.Data.List.Induction

/-!
# The shift and caps lock keys

`CheckStatusCode` of `kern/arch/x86_64/interrupts.c` with the key names of
`kern/inc/keymaps/charmap.inl`.  A key is recognised by comparing its name with a
literal over the shorter of the two lengths, so the empty name of index 0 compares
equal to every literal.  Both shift keys write the same flag, and a release of
either clears it.
-/

namespace FeralKernel

open Verif.Program Verif.Bytes

/-! ## The code -/

structure PS2KeyboardContext where
  shiftModifier : BitVec 8
  controlModifier : BitVec 8
  altModifier : BitVec 8
  capsLock : BitVec 8
deriving DecidableEq, Repr

/-- The texts that the entries of `PS2Charmap` point to. -/
def ps2Names : List String :=
  ["", "Esc", "1", "2", "3", "4", "5", "6", "7", "8", "9", "0", "-", "=", "Backspace", "Tab",
    "Q", "W", "E", "R", "T", "Y", "U", "I", "O", "P", "[", "]", "Enter", "LCtrl",
    "A", "S", "D", "F", "G", "H", "J", "K", "L", ";", "'", "`", "LShift", "\\",
    "Z", "X", "C", "V", "B", "N", "M", ",", ".", "/", "RShift", "Keypad *", "LAlt", " ",
    "CapsLock", "F1", "F2", "F3", "F4", "F5", "F6", "F7", "F8", "F9", "F10", "NumLock",
    "ScrollLock", "Keypad 7", "Keypad 8", "Keypad 9", "Keypad 4", "Keypad 5", "Keypad 6",
    "Keypad 1", "Keypad 2", "Keypad 3", "Keypad 0", "Keypad .", "F11", "F12"]

/-- Where the array and the literals of the translation unit are.  The compiler
keeps one copy of each literal, so a literal is found by its text. -/
structure KeyStrings where
  ps2Charmap : Ptr
  literal : String → Ptr

/-- The `!` of C. -/
def logicalNot (v : BitVec 8) : BitVec 8 := if v = 0 then 1 else 0

/-- The comparisons with the names of the two shift keys. -/
def isShiftKey (strings : KeyStrings) (content : Ptr) (compareLength : BitVec 64) :
    Kern PS2KeyboardContext Bool := do
  let (_, val) ← kiCompareMemory content (strings.literal "LShift") compareLength
  if val.getD false = false then
    let (_, val) ← kiCompareMemory content (strings.literal "RShift") compareLength
    pure (val.getD false)
  else pure true

/-- `CheckStatusCode` up to the call of `KiBackspace`, the last thing that it does, and whether
there is one. -/
def statusCodeKey (strings : KeyStrings) (input : BitVec 8) : Kern PS2KeyboardContext Bool := do
  let released := decide (input &&& 0x80 ≠ 0x00)
  let index := input &&& 0x7F
  let content ← load64 (strings.ps2Charmap + 8 * index.setWidth 64)
  let maxLength : BitVec 64 := 6
  let (_, length) ← kiGetStringLength content
  let contentLength := length.getD 0
  let compareLength := if contentLength < maxLength then contentLength else maxLength
  let isShift ← isShiftKey strings content compareLength
  let context ← getStatics
  if released = false ∧ isShift = true then
    setStatics { context with shiftModifier := logicalNot context.capsLock }
    pure false
  else if released = true ∧ isShift = true then
    setStatics { context with shiftModifier := context.capsLock }
    pure false
  else
    let (_, val) ← kiCompareMemory content (strings.literal "CapsLock") compareLength
    if released = false ∧ val.getD false = true then
      setStatics { context with
        shiftModifier := logicalNot context.shiftModifier
        capsLock := logicalNot context.capsLock }
      pure false
    else
      let maxBackspaceLength : BitVec 64 := 9
      let compareLength :=
        if contentLength < maxBackspaceLength then contentLength else maxBackspaceLength
      let (_, val) ← kiCompareMemory content (strings.literal "Backspace") compareLength
      pure (decide (released = false ∧ val.getD false = true))

/-- `kiBackspace` is the call into the console. -/
def checkStatusCode (strings : KeyStrings) (kiBackspace : Kern PS2KeyboardContext Unit)
    (input : BitVec 8) : Kern PS2KeyboardContext Unit := do
  let isBackspace ← statusCodeKey strings input
  onlyIf (isBackspace = true) kiBackspace

/-- The bytes that the interrupt handler passes on, in order. -/
def checkStatusCodes (strings : KeyStrings) (kiBackspace : Kern PS2KeyboardContext Unit) :
    List (BitVec 8) → Kern PS2KeyboardContext Unit
  | [] => pure ()
  | input :: rest => do
    checkStatusCode strings kiBackspace input
    checkStatusCodes strings kiBackspace rest

/-! ## What one byte does -/

/-- The array and the literals are in memory. -/
structure KeyStrings.In (strings : KeyStrings) (m : Mem) : Prop where
  table : ∀ i (h : i < ps2Names.length),
    read64 m (phys (strings.ps2Charmap + 8 * BitVec.ofNat 64 i)) = strings.literal ps2Names[i]
  text : ∀ name ∈ ps2Names, CString m (strings.literal name) (chars name)

/-- What `CheckStatusCode` does to the context for a byte with a name in the table. -/
def PS2KeyboardContext.after (context : PS2KeyboardContext) (input : BitVec 8) :
    PS2KeyboardContext :=
  let index := (input &&& 0x7F).toNat
  if index = 0 ∨ index = 42 ∨ index = 54 then
    if input &&& 0x80 = 0 then { context with shiftModifier := logicalNot context.capsLock }
    else { context with shiftModifier := context.capsLock }
  else if input = 0x3A then
    { context with
      shiftModifier := logicalNot context.shiftModifier
      capsLock := logicalNot context.capsLock }
  else context

/-- The texts differ at one of the first `n` bytes, their terminators included. -/
def Differ (t1 t2 : List (BitVec 8)) (n : Nat) : Prop :=
  ∃ k ∈ List.range n, k ≤ t1.length ∧ k ≤ t2.length ∧ t1.getD k 0 ≠ t2.getD k 0

instance (t1 t2 : List (BitVec 8)) (n : Nat) : Decidable (Differ t1 t2 n) :=
  inferInstanceAs (Decidable (∃ k ∈ List.range n, _))

theorem Differ.not_sameBytes {m : Mem} {a b : Ptr} {t1 t2 : List (BitVec 8)} {n : Nat}
    (h : Differ t1 t2 n) (ha : CString m a t1) (hb : CString m b t2) :
    ¬ SameBytes m a b n := by
  obtain ⟨k, hk, h1, h2, hne⟩ := h
  intro hsame
  apply hne
  rw [← ha.bytes k h1, ← hb.bytes k h2]
  exact hsame k (List.mem_range.mp hk)

/-- How many bytes the comparisons look at for a name. -/
def comparedBytes (name : String) : Nat := (min (chars name).length 6 + 3) / 4 * 4

theorem empty_compared : comparedBytes "" = 0 := by decide

theorem names_differ_shift : ∀ i : Fin 84, i.val ≠ 0 → i.val ≠ 42 → i.val ≠ 54 →
    Differ (chars (ps2Names[i])) (chars "LShift") (comparedBytes (ps2Names[i])) ∧
    Differ (chars (ps2Names[i])) (chars "RShift") (comparedBytes (ps2Names[i])) := by
  decide +kernel

theorem names_differ_capsLock : ∀ i : Fin 84, i.val ≠ 0 → i.val ≠ 58 →
    Differ (chars (ps2Names[i])) (chars "CapsLock") (comparedBytes (ps2Names[i])) := by
  decide +kernel

theorem names_differ_backspace : ∀ i : Fin 84, i.val ≠ 0 → i.val ≠ 14 →
    Differ (chars (ps2Names[i])) (chars "Backspace")
      ((min (chars (ps2Names[i])).length 9 + 3) / 4 * 4) := by
  decide +kernel

/-- A call that leaves the context and the strings alone, as the one into the console
does. -/
def KeepsKeys (strings : KeyStrings) (x : Kern PS2KeyboardContext Unit) : Prop :=
  ∀ s : Machine PS2KeyboardContext, strings.In s.mem →
    Returns x s fun _ t => t.statics = s.statics ∧ strings.In t.mem

section Step

variable {strings : KeyStrings} {kiBackspace : Kern PS2KeyboardContext Unit}
variable {s : Machine PS2KeyboardContext} {i : Nat}

/-- The length that a comparison gets. -/
theorem toNat_compareLength {n : Nat} (hn : n < 2 ^ 64) (limit : BitVec 64) :
    (if BitVec.ofNat 64 n < limit then BitVec.ofNat 64 n else limit).toNat =
      min n limit.toNat := by
  have hnat : (BitVec.ofNat 64 n).toNat = n := by
    rw [BitVec.toNat_ofNat]
    omega
  split
  · rename_i h
    rw [BitVec.lt_def, hnat] at h
    omega
  · rename_i h
    rw [BitVec.lt_def, hnat] at h
    omega

/-- One comparison with a literal. -/
theorem compareLiteral_spec (hin : strings.In s.mem) {content : Ptr} (hcontent : content ≠ 0)
    (name : String) (hname : name ∈ ps2Names) {limit n : Nat} (hlimit : limit ≤ 9)
    {length : BitVec 64} (hlength : length.toNat = min n limit) :
    Returns (kiCompareMemory content (strings.literal name) length) s fun r t =>
      (∃ b, r = (.success, some b) ∧ (b = true ↔
        SameBytes s.mem content (strings.literal name) ((min n limit + 3) / 4 * 4))) ∧
      t.mem = s.mem ∧ t.statics = s.statics := by
  apply (kiCompareMemory_spec hcontent (hin.text name hname).nonnull (by omega)).mono
  intro r t ht
  obtain ⟨hr, hm, hside⟩ := ht
  rw [setBytes, hlength] at hr
  exact ⟨hr, hm, hside.1⟩

theorem isShift_iff (hin : strings.In s.mem) (hi : i < ps2Names.length) :
    (SameBytes s.mem (strings.literal ps2Names[i]) (strings.literal "LShift")
        (comparedBytes ps2Names[i]) ∨
      SameBytes s.mem (strings.literal ps2Names[i]) (strings.literal "RShift")
        (comparedBytes ps2Names[i])) ↔ i = 0 ∨ i = 42 ∨ i = 54 := by
  have htext := hin.text _ (List.getElem_mem hi)
  have hl := hin.text "LShift" (by decide)
  have hr := hin.text "RShift" (by decide)
  constructor
  · intro hsame
    by_contra hne
    rw [not_or, not_or] at hne
    obtain ⟨hdl, hdr⟩ := names_differ_shift ⟨i, hi⟩ hne.1 hne.2.1 hne.2.2
    exact hsame.elim (hdl.not_sameBytes htext hl) (hdr.not_sameBytes htext hr)
  · intro hcase
    rcases hcase with rfl | rfl | rfl
    · exact Or.inl fun k hk => absurd (show k < comparedBytes "" from hk) (by rw [empty_compared]; omega)
    · exact Or.inl fun k _ => rfl
    · exact Or.inr fun k _ => rfl

theorem isShiftKey_spec (hin : strings.In s.mem) (hi : i < ps2Names.length) {length : BitVec 64}
    (hlength : length.toNat = min (chars ps2Names[i]).length 6) :
    Returns (isShiftKey strings (strings.literal ps2Names[i]) length) s fun isShift t =>
      (isShift = true ↔ i = 0 ∨ i = 42 ∨ i = 54) ∧ t.mem = s.mem ∧ t.statics = s.statics := by
  have hnonnull := (hin.text _ (List.getElem_mem hi)).nonnull
  have hiff := isShift_iff hin hi
  rw [isShiftKey, returns_bind]
  apply (compareLiteral_spec hin hnonnull "LShift" (by decide) (by decide) hlength).mono
  intro r t ht
  obtain ⟨⟨b1, rfl, hb1⟩, hm, hstat⟩ := ht
  dsimp only [Option.getD_some]
  cases b1 with
  | true =>
    rw [if_neg (by decide), returns_pure]
    exact ⟨⟨fun _ => hiff.mp (Or.inl (hb1.mp rfl)), fun _ => rfl⟩, hm, hstat⟩
  | false =>
    have hin' : strings.In t.mem := by rw [hm]; exact hin
    rw [if_pos rfl, returns_bind]
    apply (compareLiteral_spec hin' hnonnull "RShift" (by decide) (by decide) hlength).mono
    intro r u hu
    obtain ⟨⟨b2, rfl, hb2⟩, hm', hstat'⟩ := hu
    rw [hm] at hb2
    dsimp only [Option.getD_some]
    rw [returns_pure, ← hiff, hb2]
    refine ⟨⟨Or.inr, fun h => h.resolve_left fun hl => ?_⟩, hm'.trans hm, hstat'.trans hstat⟩
    exact absurd (hb1.mpr hl) (by decide)

theorem isCapsLock_iff (hin : strings.In s.mem) (hi : i < ps2Names.length) (h0 : i ≠ 0) :
    SameBytes s.mem (strings.literal ps2Names[i]) (strings.literal "CapsLock")
      (comparedBytes ps2Names[i]) ↔ i = 58 := by
  constructor
  · intro hsame
    by_contra hne
    exact (names_differ_capsLock ⟨i, hi⟩ h0 hne).not_sameBytes (hin.text _ (List.getElem_mem hi))
      (hin.text "CapsLock" (by decide)) hsame
  · rintro rfl
    exact fun k _ => rfl

/-- The byte 0x3A is the make code of index 58. -/
theorem capsLock_make : ∀ input : BitVec 8,
    (input &&& 0x80 = 0 ∧ (input &&& 0x7F).toNat = 58) ↔ input = 0x3A := by
  decide +kernel

/-- The byte 0x0E is the make code of index 14. -/
theorem backspace_make : ∀ input : BitVec 8,
    (input &&& 0x80 = 0 ∧ (input &&& 0x7F).toNat = 14) ↔ input = 0x0E := by
  decide +kernel

theorem isBackspace_iff (hin : strings.In s.mem) (hi : i < ps2Names.length) (h0 : i ≠ 0) :
    SameBytes s.mem (strings.literal ps2Names[i]) (strings.literal "Backspace")
      ((min (chars ps2Names[i]).length 9 + 3) / 4 * 4) ↔ i = 14 := by
  constructor
  · intro hsame
    by_contra hne
    exact (names_differ_backspace ⟨i, hi⟩ h0 hne).not_sameBytes
      (hin.text _ (List.getElem_mem hi)) (hin.text "Backspace" (by decide)) hsame
  · intro h
    subst h
    exact fun k _ => rfl

/-- The flags, and `KiBackspace` for the make code of the backspace key alone. -/
theorem statusCodeKey_spec (hin : strings.In s.mem) {input : BitVec 8}
    (hinput : (input &&& 0x7F).toNat < ps2Names.length) :
    Returns (statusCodeKey strings input) s fun isBackspace t =>
      isBackspace = decide (input = 0x0E) ∧ t.statics = s.statics.after input ∧ t.mem = s.mem := by
  obtain ⟨i, hi⟩ : ∃ i, (input &&& 0x7F).toNat = i := ⟨_, rfl⟩
  rw [hi] at hinput
  have hindex : (input &&& 0x7F).setWidth 64 = BitVec.ofNat 64 i := by
    apply BitVec.eq_of_toNat_eq
    rw [BitVec.toNat_setWidth, BitVec.toNat_ofNat, hi]
  have htext := hin.text _ (List.getElem_mem hinput)
  rw [statusCodeKey]
  simp only [returns_bind, returns_load64, hindex, hin.table i hinput]
  apply (kiGetStringLength_spec (s := s.note _) htext).mono
  intro r t1 h1
  obtain ⟨rfl, hm1, hside1⟩ := h1
  have hstat1 : t1.statics = s.statics := hside1.1
  have hin1 : strings.In t1.mem := by rw [hm1]; exact hin
  have hlength := toNat_compareLength htext.short 6
  have hlength' := toNat_compareLength htext.short 9
  dsimp only [Option.getD_some]
  apply (isShiftKey_spec hin1 hinput hlength).mono
  intro isShift t2 h2
  obtain ⟨hisShift, hm2, hstat2⟩ := h2
  have hm2 : t2.mem = s.mem := hm2.trans hm1
  have hin2 : strings.In t2.mem := by rw [hm2]; exact hin
  rw [returns_getStatics, hstat2, hstat1, PS2KeyboardContext.after, hi]
  by_cases hcase : i = 0 ∨ i = 42 ∨ i = 54
  · have hno : decide (input = 0x0E) = false := by
      refine decide_eq_false fun h => ?_
      rw [← backspace_make, hi] at h
      omega
    rw [if_pos hcase, hisShift.mpr hcase, hno]
    by_cases hup : input &&& 0x80 = 0
    · simp only [hup, ne_eq, not_true_eq_false, decide_false, and_self, if_true, returns_bind,
        returns_setStatics, returns_pure]
      exact ⟨trivial, trivial, hm2⟩
    · simp only [hup, ne_eq, not_false_eq_true, decide_true, and_self, if_true, if_false,
        Bool.true_eq_false, false_and, returns_bind, returns_setStatics, returns_pure]
      exact ⟨trivial, trivial, hm2⟩
  · have hnot : isShift = false := by
      cases isShift with
      | true => exact absurd (hisShift.mp rfl) hcase
      | false => rfl
    have h0 : i ≠ 0 := fun h => hcase (Or.inl h)
    rw [if_neg hcase, hnot, if_neg (by simp), if_neg (by simp), returns_bind]
    apply (compareLiteral_spec hin2 htext.nonnull "CapsLock" (by decide) (by decide) hlength).mono
    intro r t3 h3
    obtain ⟨⟨b3, rfl, hb3⟩, hm3, hstat3⟩ := h3
    have hcaps : (decide (input &&& 0x80 ≠ 0x00) = false ∧ b3 = true) ↔ input = 0x3A := by
      rw [hb3, ← capsLock_make, hi, ← isCapsLock_iff hin2 hinput h0, decide_eq_false_iff_not,
        Decidable.not_not]
      rfl
    dsimp only [Option.getD_some]
    by_cases hc : input = 0x3A
    · rw [if_pos (hcaps.mpr hc), if_pos hc, returns_bind, returns_setStatics, returns_pure, hc]
      exact ⟨rfl, rfl, hm3.trans hm2⟩
    · rw [if_neg (fun h => hc (hcaps.mp h)), if_neg hc, returns_bind]
      have hin3 : strings.In t3.mem := by rw [hm3]; exact hin2
      apply (compareLiteral_spec hin3 htext.nonnull "Backspace" (by decide) (by decide)
        hlength').mono
      intro r t4 h4
      obtain ⟨⟨b4, rfl, hb4⟩, hm4, hstat4⟩ := h4
      have hback : (decide (input &&& 0x80 ≠ 0x00) = false ∧ b4 = true) ↔ input = 0x0E := by
        rw [hb4, ← backspace_make, hi, ← isBackspace_iff hin3 hinput h0, decide_eq_false_iff_not,
          Decidable.not_not]
        rfl
      dsimp only [Option.getD_some]
      rw [returns_pure]
      exact ⟨decide_eq_decide.mpr hback, by rw [hstat4, hstat3, hstat2, hstat1],
        hm4.trans (hm3.trans hm2)⟩

theorem checkStatusCode_spec (hback : KeepsKeys strings kiBackspace) (hin : strings.In s.mem)
    {input : BitVec 8} (hinput : (input &&& 0x7F).toNat < ps2Names.length) :
    Returns (checkStatusCode strings kiBackspace input) s fun _ t =>
      t.statics = s.statics.after input ∧ strings.In t.mem := by
  rw [checkStatusCode]
  apply (statusCodeKey_spec hin hinput).bind
  intro isBackspace t ht
  obtain ⟨-, hstat, hm⟩ := ht
  have hin' : strings.In t.mem := by rw [hm]; exact hin
  rw [onlyIf]
  split
  · apply (hback t hin').mono
    intro _ u hu
    exact ⟨hu.1.trans hstat, hu.2⟩
  · rw [returns_pure]
    exact ⟨hstat, hin'⟩

theorem checkStatusCodes_spec (hback : KeepsKeys strings kiBackspace)
    (inputs : List (BitVec 8)) :
    ∀ s : Machine PS2KeyboardContext, strings.In s.mem →
      (∀ input ∈ inputs, (input &&& 0x7F).toNat < ps2Names.length) →
      Returns (checkStatusCodes strings kiBackspace inputs) s fun _ t =>
        t.statics = inputs.foldl PS2KeyboardContext.after s.statics := by
  induction inputs with
  | nil =>
    intro s _ _
    rw [checkStatusCodes, returns_pure]
    rfl
  | cons input rest ih =>
    intro s hin hinputs
    rw [checkStatusCodes]
    apply (checkStatusCode_spec hback hin (hinputs input (List.mem_cons_self ..))).bind
    intro _ t ht
    obtain ⟨hstat, hin'⟩ := ht
    apply (ih t hin' fun b hb => hinputs b (List.mem_cons_of_mem _ hb)).mono
    intro _ u hu
    rw [hu, hstat]
    rfl

end Step

/-! ## What the flags should say -/

/-- The key with this make code has been made and not released since. -/
def isHeld (make : BitVec 8) (inputs : List (BitVec 8)) : Bool :=
  inputs.foldl (fun held input =>
    if input = make then true else if input = make ||| 0x80 then false else held) false

def shiftHeld (inputs : List (BitVec 8)) : Bool := isHeld 0x2A inputs || isHeld 0x36 inputs

/-- The parity of the make codes of the caps lock key. -/
def capsOn (inputs : List (BitVec 8)) : Bool := decide (inputs.count 0x3A % 2 = 1)

def CapsShown (inputs : List (BitVec 8)) (context : PS2KeyboardContext) : Prop :=
  context.capsLock.toNat = inputs.count 0x3A % 2

def ShiftShown (inputs : List (BitVec 8)) (context : PS2KeyboardContext) : Prop :=
  context.shiftModifier ≠ 0 ↔ (shiftHeld inputs ^^ capsOn inputs) = true

/-- A byte that the single flag copes with: the empty name is made only while a shift
key is held and released only while none is, and a shift key is released only while
the other one is not held. -/
def Coped (before : List (BitVec 8)) (input : BitVec 8) : Prop :=
  (input = 0x00 → shiftHeld before = true) ∧ (input = 0x80 → shiftHeld before = false) ∧
  (input = 0xAA → isHeld 0x36 before = false) ∧ (input = 0xB6 → isHeld 0x2A before = false)

/-- The context after `inputs`, from the one that is all zero. -/
def contextAfter (inputs : List (BitVec 8)) : PS2KeyboardContext :=
  inputs.foldl PS2KeyboardContext.after ⟨0, 0, 0, 0⟩

theorem contextAfter_snoc (inputs : List (BitVec 8)) (input : BitVec 8) :
    contextAfter (inputs ++ [input]) = (contextAfter inputs).after input := by
  rw [contextAfter, List.foldl_append]
  rfl

theorem isHeld_snoc (make : BitVec 8) (inputs : List (BitVec 8)) (input : BitVec 8) :
    isHeld make (inputs ++ [input]) =
      if input = make then true else if input = make ||| 0x80 then false else isHeld make inputs := by
  rw [isHeld, List.foldl_append]
  rfl

theorem count_snoc (inputs : List (BitVec 8)) (input : BitVec 8) :
    (inputs ++ [input]).count 0x3A = inputs.count 0x3A + if input = 0x3A then 1 else 0 := by
  rw [List.count_append, List.count_singleton]
  simp

theorem capsOn_snoc (inputs : List (BitVec 8)) (input : BitVec 8) :
    capsOn (inputs ++ [input]) = if input = 0x3A then !capsOn inputs else capsOn inputs := by
  rw [capsOn, capsOn, count_snoc]
  split
  · rw [← decide_not, decide_eq_decide]
    omega
  · rfl

/-- The value a flag has for a truth value. -/
def flag (b : Bool) : BitVec 8 := if b then 1 else 0

theorem logicalNot_flag (b : Bool) : logicalNot (flag b) = flag !b := by
  cases b <;> rfl

theorem flag_ne_zero {b : Bool} : flag b ≠ 0 ↔ b = true := by
  cases b <;> decide

/-- The bytes whose name passes for a shift key. -/
theorem passes_for_shift : ∀ input : BitVec 8,
    ((input &&& 0x7F).toNat = 0 ∨ (input &&& 0x7F).toNat = 42 ∨ (input &&& 0x7F).toNat = 54) ↔
      (input = 0x00 ∨ input = 0x2A ∨ input = 0x36) ∨
        (input = 0x80 ∨ input = 0xAA ∨ input = 0xB6) := by
  decide

theorem PS2KeyboardContext.after_cases (context : PS2KeyboardContext) (input : BitVec 8) :
    (input = 0x00 ∨ input = 0x2A ∨ input = 0x36) ∧
        context.after input = { context with shiftModifier := logicalNot context.capsLock } ∨
    (input = 0x80 ∨ input = 0xAA ∨ input = 0xB6) ∧
        context.after input = { context with shiftModifier := context.capsLock } ∨
    input = 0x3A ∧ context.after input = { context with
        shiftModifier := logicalNot context.shiftModifier
        capsLock := logicalNot context.capsLock } ∨
    ((¬ (input = 0x00 ∨ input = 0x2A ∨ input = 0x36) ∧
        ¬ (input = 0x80 ∨ input = 0xAA ∨ input = 0xB6) ∧ input ≠ 0x3A) ∧
        context.after input = context) := by
  have hpass := passes_for_shift input
  by_cases hmake : input = 0x00 ∨ input = 0x2A ∨ input = 0x36
  · refine Or.inl ⟨hmake, ?_⟩
    rcases hmake with rfl | rfl | rfl <;> rfl
  · by_cases hbreak : input = 0x80 ∨ input = 0xAA ∨ input = 0xB6
    · refine Or.inr (Or.inl ⟨hbreak, ?_⟩)
      rcases hbreak with rfl | rfl | rfl <;> rfl
    · by_cases hcaps : input = 0x3A
      · refine Or.inr (Or.inr (Or.inl ⟨hcaps, ?_⟩))
        rw [hcaps]
        rfl
      · refine Or.inr (Or.inr (Or.inr ⟨⟨hmake, hbreak, hcaps⟩, ?_⟩))
        rw [after, if_neg (fun h => (hpass.mp h).elim hmake hbreak), if_neg hcaps]

/-- The caps lock flag is right after every run, and the shift flag is 0 or 1. -/
theorem contextAfter_flags (inputs : List (BitVec 8)) :
    (contextAfter inputs).capsLock = flag (capsOn inputs) ∧
    ∃ v, (contextAfter inputs).shiftModifier = flag v := by
  induction inputs using List.reverseRecOn with
  | nil => exact ⟨rfl, false, rfl⟩
  | append_singleton inputs input ih =>
    obtain ⟨hcaps, v, hshift⟩ := ih
    rw [contextAfter_snoc, capsOn_snoc]
    rcases (contextAfter inputs).after_cases input with ⟨h, ha⟩ | ⟨h, ha⟩ | ⟨h, ha⟩ | ⟨h, ha⟩
    · have hne : input ≠ 0x3A := by rcases h with rfl | rfl | rfl <;> decide
      rw [ha, if_neg hne, hcaps]
      exact ⟨rfl, _, logicalNot_flag _⟩
    · have hne : input ≠ 0x3A := by rcases h with rfl | rfl | rfl <;> decide
      rw [ha, if_neg hne, hcaps]
      exact ⟨rfl, _, rfl⟩
    · rw [ha, if_pos h, hcaps, hshift]
      exact ⟨logicalNot_flag _, _, logicalNot_flag _⟩
    · rw [ha, if_neg h.2.2]
      exact ⟨hcaps, v, hshift⟩

theorem capsShown_contextAfter (inputs : List (BitVec 8)) :
    CapsShown inputs (contextAfter inputs) := by
  rw [CapsShown, (contextAfter_flags inputs).1, capsOn]
  have hmod := Nat.mod_two_eq_zero_or_one (inputs.count 0x3A)
  rcases hmod with h | h
  · rw [h]
    rfl
  · rw [h]
    rfl

/-- One byte: from a flag that is right, it stays right exactly when the byte is one
that a single flag copes with. -/
theorem shiftShown_snoc {inputs : List (BitVec 8)} (h : ShiftShown inputs (contextAfter inputs))
    (input : BitVec 8) :
    ShiftShown (inputs ++ [input]) (contextAfter (inputs ++ [input])) ↔ Coped inputs input := by
  obtain ⟨hcaps, v, hshift⟩ := contextAfter_flags inputs
  rw [ShiftShown, hshift, flag_ne_zero] at h
  rw [ShiftShown, contextAfter_snoc, shiftHeld, isHeld_snoc, isHeld_snoc, capsOn_snoc, Coped,
    shiftHeld]
  rw [shiftHeld] at h
  generalize isHeld 0x2A inputs = left at h ⊢
  generalize isHeld 0x36 inputs = right at h ⊢
  generalize capsOn inputs = caps at h hcaps ⊢
  rcases (contextAfter inputs).after_cases input with ⟨hin, ha⟩ | ⟨hin, ha⟩ | ⟨rfl, ha⟩ | ⟨hin, ha⟩
  · rw [ha]
    dsimp only
    rw [hcaps, logicalNot_flag, flag_ne_zero]
    clear h hcaps ha
    revert left right caps
    rcases hin with rfl | rfl | rfl <;> decide
  · rw [ha]
    dsimp only
    rw [hcaps, flag_ne_zero]
    clear h hcaps ha
    revert left right caps
    rcases hin with rfl | rfl | rfl <;> decide
  · rw [ha]
    dsimp only
    rw [hshift, logicalNot_flag, flag_ne_zero]
    clear hcaps hshift ha
    revert left right caps v
    decide
  · simp only [not_or] at hin
    obtain ⟨⟨hn0, hnl, hnr⟩, ⟨hn80, hnl', hnr'⟩, hnc⟩ := hin
    rw [ha, hshift, flag_ne_zero, h, if_neg hnl, if_neg (show ¬ input = 0x2A ||| 0x80 from hnl'),
      if_neg hnr, if_neg (show ¬ input = 0x36 ||| 0x80 from hnr'), if_neg hnc]
    constructor
    · intro _
      exact ⟨fun he => absurd he hn0, fun he => absurd he hn80, fun he => absurd he hnl',
        fun he => absurd he hnr'⟩
    · intro _
      exact Iff.rfl

/-- Over a run: the shift flag is right all along exactly when a single flag copes
with every byte. -/
theorem shiftShown_iff_coped (inputs : List (BitVec 8)) :
    (∀ before, before <+: inputs → ShiftShown before (contextAfter before)) ↔
      ∀ before input, before ++ [input] <+: inputs → Coped before input := by
  constructor
  · intro h before input hpre
    exact (shiftShown_snoc (h before ((List.prefix_append _ _).trans hpre)) input).mp
      (h _ hpre)
  · intro h before
    induction before using List.reverseRecOn with
    | nil =>
      intro _
      rw [ShiftShown]
      decide
    | append_singleton before input ih =>
      intro hpre
      exact (shiftShown_snoc (ih ((List.prefix_append _ _).trans hpre)) input).mpr
        (h before input hpre)

/-- The caps lock flag always is the parity of the make codes.  The shift flag says
whether a shift key is held or caps lock is on, and not both, after every byte of a
run exactly when a single flag copes with each of them. -/
theorem checkStatusCodes_flags {strings : KeyStrings} {kiBackspace : Kern PS2KeyboardContext Unit}
    (hback : KeepsKeys strings kiBackspace) {s : Machine PS2KeyboardContext}
    (hin : strings.In s.mem) (hzero : s.statics = ⟨0, 0, 0, 0⟩) {inputs : List (BitVec 8)}
    (hinputs : ∀ input ∈ inputs, (input &&& 0x7F).toNat < ps2Names.length) :
    (∀ before, before <+: inputs →
      Returns (checkStatusCodes strings kiBackspace before) s fun _ t =>
        CapsShown before t.statics) ∧
    ((∀ before, before <+: inputs →
        Returns (checkStatusCodes strings kiBackspace before) s fun _ t =>
          ShiftShown before t.statics) ↔
      ∀ before input, before ++ [input] <+: inputs → Coped before input) := by
  have hrun : ∀ before, before <+: inputs →
      Returns (checkStatusCodes strings kiBackspace before) s fun _ t =>
        t.statics = contextAfter before := by
    intro before hpre
    apply (checkStatusCodes_spec hback before s hin fun b hb =>
      hinputs b (hpre.subset hb)).mono
    intro _ t ht
    rw [ht, hzero]
    rfl
  rw [← shiftShown_iff_coped]
  refine ⟨fun before hpre => ?_, fun h before hpre => ?_, fun h before hpre => ?_⟩
  · apply (hrun before hpre).mono
    intro _ t ht
    rw [ht]
    exact capsShown_contextAfter before
  · obtain ⟨_, t, -, hshown, ht⟩ := (h before hpre).and (hrun before hpre)
    rw [ht] at hshown
    exact hshown
  · apply (hrun before hpre).mono
    intro _ t ht
    rw [ht]
    exact h before hpre

/-! ## A machine with the strings in memory -/

/-- The array at 2 MiB and each literal in 32 bytes of its own from 3 MiB on. -/
def keyStrings : KeyStrings where
  ps2Charmap := 0x200000
  literal := fun name => BitVec.ofNat 64 (0x300000 + 32 * ps2Names.idxOf name)

def keyMem : Mem := fun x =>
  if x < 0x300000 then
    BitVec.ofNat 8 ((0x300000 + 32 * ((x - 0x200000) / 8)) / 256 ^ ((x - 0x200000) % 8))
  else (chars (ps2Names.getD ((x - 0x300000) / 32) "")).getD ((x - 0x300000) % 32) 0

def keyMachine : Machine PS2KeyboardContext := { mem := keyMem, log := [], statics := ⟨0, 0, 0, 0⟩ }

theorem ps2Names_nodup : ps2Names.Nodup := by decide +kernel

theorem ps2Names_texts : ps2Names.all (fun name =>
    decide ((chars name).length < 32) && (chars name).all (· != 0)) = true := by decide

theorem keyStrings_in : keyStrings.In keyMem := by
  have hlength : ps2Names.length = 84 := rfl
  constructor
  · intro i hi
    have hvalue : keyStrings.literal ps2Names[i] = BitVec.ofNat 64 (0x300000 + 32 * i) := by
      show BitVec.ofNat 64 (0x300000 + 32 * ps2Names.idxOf ps2Names[i]) = _
      rw [ps2Names_nodup.idxOf_getElem]
    have haddr : phys (keyStrings.ps2Charmap + 8 * BitVec.ofNat 64 i) = 0x200000 + 8 * i := by
      have hnat : (keyStrings.ps2Charmap + 8 * BitVec.ofNat 64 i).toNat = 0x200000 + 8 * i := by
        rw [BitVec.toNat_add, BitVec.toNat_mul, BitVec.toNat_ofNat,
          show keyStrings.ps2Charmap.toNat = 0x200000 from rfl, show (8 : BitVec 64).toNat = 8 from rfl]
        omega
      rw [phys, hnat, if_neg (by omega)]
    have hread : readLE keyMem (0x200000 + 8 * i) 8 = (0x300000 + 32 * i) % 256 ^ 8 := by
      refine readLE_digits fun k hk => ?_
      rw [keyMem, if_pos (by omega), show 0x200000 + 8 * i + k - 0x200000 = 8 * i + k by omega,
        show (8 * i + k) / 8 = i by omega, show (8 * i + k) % 8 = k by omega]
    rw [haddr, hvalue, read64, hread]
    apply BitVec.eq_of_toNat_eq
    rw [BitVec.toNat_ofNat, BitVec.toNat_ofNat]
    omega
  · intro name hname
    have hindex := List.idxOf_lt_length_of_mem hname
    have htext := List.all_eq_true.mp ps2Names_texts name hname
    rw [Bool.and_eq_true, decide_eq_true_eq, List.all_eq_true] at htext
    obtain ⟨hshort, hvisible⟩ := htext
    have hnat : ∀ k, k < 32 → (keyStrings.literal name + BitVec.ofNat 64 k).toNat =
        0x300000 + 32 * ps2Names.idxOf name + k := by
      intro k hk
      rw [keyStrings, BitVec.toNat_add, BitVec.toNat_ofNat, BitVec.toNat_ofNat]
      omega
    refine ⟨?_, by omega, fun k hk => ?_, fun c hc => ?_⟩
    · intro hnull
      have hzero := hnat 0 (by omega)
      rw [hnull] at hzero
      have hbad : (0 : Nat) = 0x300000 + 32 * ps2Names.idxOf name + 0 := hzero
      omega
    · have haddr : phys (keyStrings.literal name + BitVec.ofNat 64 k) =
          0x300000 + 32 * ps2Names.idxOf name + k := by
        rw [phys, hnat k (by omega), if_neg (by omega)]
      rw [haddr, keyMem, if_neg (by omega),
        show 0x300000 + 32 * ps2Names.idxOf name + k - 0x300000 =
          32 * ps2Names.idxOf name + k by omega,
        show (32 * ps2Names.idxOf name + k) / 32 = ps2Names.idxOf name by omega,
        show (32 * ps2Names.idxOf name + k) % 32 = k by omega,
        List.getD_eq_getElem _ _ hindex, List.getElem_idxOf]
    · simpa using hvisible c hc

theorem keepsKeys_pure : KeepsKeys keyStrings (pure ()) := by
  intro s hin
  rw [returns_pure]
  exact ⟨rfl, hin⟩

theorem inTable_of_all {inputs : List (BitVec 8)}
    (h : inputs.all (fun input => decide ((input &&& 0x7F).toNat < ps2Names.length)) = true) :
    ∀ input ∈ inputs, (input &&& 0x7F).toNat < ps2Names.length := by
  intro input hinput
  exact of_decide_eq_true (List.all_eq_true.mp h input hinput)

/-- A letter typed with shift, and caps lock. -/
theorem checkStatusCodes_flags_shifted :
    (∀ before, before <+: [0x2A, 0x1E, 0xAA, 0x3A] →
      Returns (checkStatusCodes keyStrings (pure ()) before) keyMachine fun _ t =>
        CapsShown before t.statics) ∧
    ((∀ before, before <+: [0x2A, 0x1E, 0xAA, 0x3A] →
        Returns (checkStatusCodes keyStrings (pure ()) before) keyMachine fun _ t =>
          ShiftShown before t.statics) ↔
      ∀ before input, before ++ [input] <+: [0x2A, 0x1E, 0xAA, 0x3A] → Coped before input) :=
  checkStatusCodes_flags keepsKeys_pure keyStrings_in rfl (inTable_of_all (by decide))

/-- With both shift keys held, the release of the left one clears the flag, and the
byte 0 sets it with no key held at all. -/
theorem shift_flag_wrong :
    (Returns (checkStatusCodes keyStrings (pure ()) [0x2A, 0x36, 0xAA]) keyMachine fun _ t =>
      ¬ ShiftShown [0x2A, 0x36, 0xAA] t.statics) ∧
    (Returns (checkStatusCodes keyStrings (pure ()) [0x00]) keyMachine fun _ t =>
      ¬ ShiftShown [0x00] t.statics) := by
  constructor
  · apply (checkStatusCodes_spec keepsKeys_pure _ keyMachine keyStrings_in (inTable_of_all (by decide))).mono
    intro _ t ht
    rw [ht, ShiftShown]
    decide
  · apply (checkStatusCodes_spec keepsKeys_pure _ keyMachine keyStrings_in (inTable_of_all (by decide))).mono
    intro _ t ht
    rw [ht, ShiftShown]
    decide

end FeralKernel
