import FeralKernel.Console.BackingFunctions
import FeralKernel.Console.Keyboard

/-!
# From keys to letters

`InternalConvertPS2KeyToASCII` and `ApplyShiftIfNeeded` of `kern/arch/x86_64/interrupts.c`.  A
`Terminal` is what the handler of the keyboard makes of its bytes: the flags of the keyboard and
the screen.
-/

namespace FeralKernel

open Verif.Program Verif.Bytes

/-! ## The code -/

def applyShiftIfNeeded (input : BitVec 8) : Kern PS2KeyboardContext (BitVec 8) := do
  if input.toInt < (ch 'A').toInt ∨ (ch 'z').toInt < input.toInt then pure input
  else
    let context ← getStatics
    if context.shiftModifier ≠ 0 then pure (input &&& ~~~0x20) else pure (input ||| 0x20)

def internalConvertPS2KeyToASCII (strings : KeyStrings) (input : BitVec 8) :
    Kern PS2KeyboardContext (BitVec 8) := do
  let index := input &&& 0x7F
  let content ← load64 (strings.ps2Charmap + 8 * index.setWidth 64)
  let (_, length) ← kiGetStringLength content
  let properLetter ← load8 (content + 0)
  if input = 0x1C ∨ input = 0x5A then pure (ch '\n')
  else if input = 0x39 ∨ input = 0x29 then pure (ch ' ')
  else if length.getD 0 ≠ 1 then pure 0
  else applyShiftIfNeeded properLetter

/-! ## What a byte does -/

namespace PS2KeyboardContext

/-- `ApplyShiftIfNeeded`.  The range holds the brackets and the backslash as well as the
letters. -/
def shifted (context : PS2KeyboardContext) (c : BitVec 8) : BitVec 8 :=
  if c.toInt < (ch 'A').toInt ∨ (ch 'z').toInt < c.toInt then c
  else if context.shiftModifier ≠ 0 then c &&& ~~~0x20 else c ||| 0x20

/-- The letter of a byte with a name in the table, or zero. -/
def letter (context : PS2KeyboardContext) (input : BitVec 8) : BitVec 8 :=
  let name := chars (ps2Names.getD (input &&& 0x7F).toNat "")
  if input = 0x1C ∨ input = 0x5A then ch '\n'
  else if input = 0x39 ∨ input = 0x29 then ch ' '
  else if name.length ≠ 1 then 0
  else context.shifted (name.getD 0 0)

end PS2KeyboardContext

def charRun (first : Char) (count : Nat) : List (BitVec 8) :=
  (List.range count).map fun k => ch first + BitVec.ofNat 8 k

/-- The characters that the keyboard has: the new line, the space, 15 marks, the digits and the
letters. -/
def typedChars : List (BitVec 8) :=
  [ch '\n', ch ' ', 0x27] ++ charRun ',' 4 ++ [ch ';', ch '='] ++ charRun '[' 3 ++ charRun '{' 3 ++
    charRun '0' 10 ++ charRun 'a' 26 ++ charRun 'A' 26

/-- What a call makes of the screen when a character of a format is printed. -/
def Screen.type (scr : Screen) (c : BitVec 8) : Screen :=
  ((FmtItem.literal c).calls 0 none).foldl (fun scr call => call.draw scr) scr

structure Terminal where
  keyboard : PS2KeyboardContext
  screen : Screen

namespace Terminal

def press (t : Terminal) (input : BitVec 8) : Terminal :=
  let keyboard := t.keyboard.after input
  let screen := if input = 0x0E then t.screen.backspace else t.screen
  let letter := keyboard.letter input
  { keyboard := keyboard
    screen := if letter ≠ 0 ∧ input &&& 0x7F = input then screen.type letter else screen }

end Terminal

/-! ## The functions of the keyboard -/

section Keys

variable {strings : KeyStrings} {s : Machine PS2KeyboardContext} {i : Nat}

theorem applyShiftIfNeeded_spec (input : BitVec 8) :
    Returns (applyShiftIfNeeded input) s fun c t => c = s.statics.shifted input ∧ t = s := by
  rw [applyShiftIfNeeded, PS2KeyboardContext.shifted]
  split
  · exact returns_pure.mpr ⟨rfl, rfl⟩
  · rw [returns_bind, returns_getStatics]
    split
    · exact returns_pure.mpr ⟨rfl, rfl⟩
    · exact returns_pure.mpr ⟨rfl, rfl⟩

theorem internalConvertPS2KeyToASCII_spec (hin : strings.In s.mem) {input : BitVec 8}
    (hinput : (input &&& 0x7F).toNat < ps2Names.length) :
    Returns (internalConvertPS2KeyToASCII strings input) s fun c t =>
      c = s.statics.letter input ∧ t.statics = s.statics ∧ t.mem = s.mem := by
  obtain ⟨i, hi⟩ : ∃ i, (input &&& 0x7F).toNat = i := ⟨_, rfl⟩
  rw [hi] at hinput
  have hindex : (input &&& 0x7F).setWidth 64 = BitVec.ofNat 64 i := by
    apply BitVec.eq_of_toNat_eq
    rw [BitVec.toNat_setWidth, BitVec.toNat_ofNat, hi]
  have htext := hin.text _ (List.getElem_mem hinput)
  have hfirst : s.mem (phys (strings.literal ps2Names[i] + 0)) = (chars ps2Names[i]).getD 0 0 :=
    htext.bytes 0 (Nat.zero_le _)
  rw [internalConvertPS2KeyToASCII, PS2KeyboardContext.letter, hi,
    List.getD_eq_getElem _ _ hinput]
  simp only [returns_bind, returns_load64, hindex, hin.table i hinput]
  apply (kiGetStringLength_spec (s := s.note _) htext).mono
  intro r t ht
  obtain ⟨rfl, hm, hside⟩ := ht
  have hmem : t.mem = s.mem := hm
  have hstat : t.statics = s.statics := hside.1
  have hlength : BitVec.ofNat 64 (chars ps2Names[i]).length ≠ 1 ↔ (chars ps2Names[i]).length ≠ 1 := by
    have hshort := htext.short
    rw [ne_eq, ne_eq, ← BitVec.toNat_inj, BitVec.toNat_ofNat, Nat.mod_eq_of_lt hshort]
    exact Iff.rfl
  dsimp only [Option.getD_some]
  rw [returns_load8, hmem, hfirst]
  by_cases henter : input = 0x1C ∨ input = 0x5A
  · rw [if_pos henter, if_pos henter]
    exact returns_pure.mpr ⟨rfl, hstat, hmem⟩
  · rw [if_neg henter, if_neg henter]
    by_cases hspace : input = 0x39 ∨ input = 0x29
    · rw [if_pos hspace, if_pos hspace]
      exact returns_pure.mpr ⟨rfl, hstat, hmem⟩
    · rw [if_neg hspace, if_neg hspace]
      by_cases hone : (chars ps2Names[i]).length ≠ 1
      · rw [if_pos (hlength.mpr hone), if_pos hone]
        exact returns_pure.mpr ⟨rfl, hstat, hmem⟩
      · rw [if_neg (mt hlength.mp hone), if_neg hone]
        apply (applyShiftIfNeeded_spec _).mono
        intro c u hu
        rw [hu.1, hu.2]
        exact ⟨congrArg (PS2KeyboardContext.shifted · _) hstat, hstat, hmem⟩

end Keys

/-! ## Letters -/

/-- The letter of an entry of the table, by the flag. -/
def tableLetter (i : Nat) (shift : Bool) : BitVec 8 :=
  PS2KeyboardContext.letter ⟨flag shift, 0, 0, 0⟩ (BitVec.ofNat 8 i)

theorem tableLetters_typed : ((List.range 84).all fun i => [false, true].all fun shift =>
    tableLetter i shift == 0 || typedChars.contains (tableLetter i shift)) = true := by
  decide +kernel

theorem typedChars_letters : (typedChars.all fun c => c != 0 && (List.range 84).any fun i =>
    [false, true].any fun shift => tableLetter i shift == c) = true := by
  decide +kernel

theorem typedChars_directive : (typedChars.all fun c => c != ch '%') = true := by decide +kernel

theorem PS2KeyboardContext.letter_congr {context context' : PS2KeyboardContext}
    (h : context.shiftModifier ≠ 0 ↔ context'.shiftModifier ≠ 0) (input : BitVec 8) :
    context.letter input = context'.letter input := by
  simp only [letter, shifted, h]

/-- Every character of the list is typed by some key, and no other one is. -/
theorem mem_typedChars_iff (c : BitVec 8) : c ∈ typedChars ↔ c ≠ 0 ∧
    ∃ (context : PS2KeyboardContext) (input : BitVec 8), input.toNat < ps2Names.length ∧
      context.letter input = c := by
  constructor
  · intro hc
    have hletter := List.all_eq_true.mp typedChars_letters c hc
    simp only [Bool.and_eq_true, bne_iff_ne, List.any_eq_true, beq_iff_eq] at hletter
    obtain ⟨hne, i, hi, shift, -, he⟩ := hletter
    have hindex : (BitVec.ofNat 8 i).toNat < ps2Names.length := by
      rw [BitVec.toNat_ofNat]
      exact Nat.lt_of_le_of_lt (Nat.mod_le _ _) (List.mem_range.mp hi)
    exact ⟨hne, _, _, hindex, he⟩
  · intro h
    obtain ⟨hne, context, input, hindex, rfl⟩ := h
    have hinput : BitVec.ofNat 8 input.toNat = input :=
      (BitVec.ofNat_toNat 8 input).trans (BitVec.setWidth_eq input)
    have hflag : context.shiftModifier ≠ 0 ↔
        (⟨flag (decide (context.shiftModifier ≠ 0)), 0, 0, 0⟩ : PS2KeyboardContext).shiftModifier
          ≠ 0 := by
      rw [flag_ne_zero, decide_eq_true_eq]
    have htable := List.all_eq_true.mp tableLetters_typed input.toNat (List.mem_range.mpr hindex)
    have hshift := List.all_eq_true.mp htable (decide (context.shiftModifier ≠ 0)) (by
      cases decide (context.shiftModifier ≠ 0) <;> decide)
    rw [tableLetter, hinput, ← PS2KeyboardContext.letter_congr hflag] at hshift
    have hcase : context.letter input = 0 ∨ context.letter input ∈ typedChars := by
      simpa using hshift
    exact hcase.resolve_left hne

/-- What is typed does not start a directive. -/
theorem typedChars_plain {c : BitVec 8} (hc : c ∈ typedChars) : c ≠ ch '%' := by
  simpa using List.all_eq_true.mp typedChars_directive c hc

/-! ## Texts without directives -/

theorem fmtTokens_plain {text : List (BitVec 8)} (h : ∀ c ∈ text, c ≠ ch '%') :
    fmtTokens false text = text.map fun c => .item (.literal c) := by
  induction text with
  | nil => rfl
  | cons c text ih =>
    rw [fmtTokens, if_neg (h c (List.mem_cons_self ..)),
      ih fun d hd => h d (List.mem_cons_of_mem _ hd)]
    rfl

theorem literal_calls_draw (empty : Ptr) (scr : Screen) (c : BitVec 8) :
    ((FmtItem.literal c).calls empty none).foldl (fun scr call => call.draw scr) scr =
      scr.type c := by
  rw [Screen.type, FmtItem.calls, FmtItem.calls]
  split
  · rfl
  · split
    · rfl
    · rfl

theorem tokenCalls_plain (empty : Ptr) (text : List (BitVec 8)) : ∀ scr : Screen,
    (tokenCalls empty (text.map fun c => .item (.literal c)) []).foldl
      (fun scr call => call.draw scr) scr = text.foldl Screen.type scr := by
  induction text with
  | nil =>
    intro scr
    rfl
  | cons c text ih =>
    intro scr
    rw [List.map_cons, tokenCalls, List.foldl_append, List.foldl_cons, ← ih,
      ← literal_calls_draw empty scr c]
    rfl

theorem kinds_plain (text : List (BitVec 8)) :
    FmtSuffices (text.map fun c => .item (.literal c)) [] := by
  have hnone : (text.map fun c => FmtToken.item (.literal c)).filterMap FmtToken.kind = [] := by
    rw [List.filterMap_map, List.filterMap_eq_nil_iff]
    intro c _
    rfl
  rw [FmtSuffices, hnone]
  exact List.nil_prefix

theorem no_cut_plain (text : List (BitVec 8)) (c : BitVec 8) :
    FmtToken.cut c ∉ text.map fun c => FmtToken.item (.literal c) := by
  intro h
  obtain ⟨_, _, he⟩ := List.mem_map.mp h
  cases he

/-- The characters of a text without directives are typed one after the other. -/
theorem kiPrintFmt_types {σ : Type} {l : Part σ VgaContext} {b : Ptr} {n : Nat} {s : Machine σ}
    {scr : Screen} {literal : String → Ptr} {buf fmt : Ptr} {args : Nat → BitVec 64}
    {text : List (BitVec 8)} (hs : ShowsAt b n ((machinePart l).get s) scr)
    (h : BesideScreen b n s.mem literal buf fmt args text []) (hplain : ∀ c ∈ text, c ≠ ch '%') :
    Returns (kiPrintFmtWith (fun c => focus (machinePart l) (vgaCall c)) literal buf fmt args) s
      fun _ t => ShowsAt b n ((machinePart l).get t) (text.foldl Screen.type scr) ∧
        (∀ a, ¬ OnBytes b n a → ¬ InBuffer buf a → t.mem a = s.mem a) ∧
        (l.get t.statics).framebuffer = (l.get s.statics).framebuffer ∧
        t.statics = l.set s.statics (l.get t.statics) := by
  have htokens := fmtTokens_plain hplain
  refine (kiPrintFmt_draws hs h ?_ ?_).mono fun status t ht => ?_
  · rw [htokens]
    exact no_cut_plain text
  · rw [htokens]
    exact kinds_plain text
  · rw [htokens, tokenCalls_plain] at ht
    exact ht.2

/-! ## Texts that are typed -/

/-- With the flag, the byte types `c` and changes no flag. -/
def Types (shift : Bool) (input c : BitVec 8) : Prop :=
  (input &&& 0x7F = input ∧ input ≠ 0x0E ∧ input ≠ 0x3A ∧ input.toNat < ps2Names.length ∧
    input.toNat ≠ 0 ∧ input.toNat ≠ 42 ∧ input.toNat ≠ 54) ∧
  PS2KeyboardContext.letter ⟨flag shift, 0, 0, 0⟩ input = c

instance (shift : Bool) (input c : BitVec 8) : Decidable (Types shift input c) :=
  inferInstanceAs (Decidable (_ ∧ _))

theorem typedChars_keys : (typedChars.all fun c => [false, true].any fun shift =>
    (List.range 84).any fun i => decide (Types shift (BitVec.ofNat 8 i) c)) = true := by
  decide +kernel

theorem exists_types {c : BitVec 8} (hc : c ∈ typedChars) : ∃ shift input, Types shift input c := by
  have hkey := List.all_eq_true.mp typedChars_keys c hc
  simp only [List.any_eq_true, decide_eq_true_eq] at hkey
  obtain ⟨shift, -, i, -, h⟩ := hkey
  exact ⟨shift, _, h⟩

namespace Terminal

variable {t : Terminal} {input c : BitVec 8}

theorem press_types {shift : Bool} (h : Types shift input c) (hc : c ≠ 0)
    (hshift : t.keyboard.shiftModifier ≠ 0 ↔ shift = true) :
    t.press input = { t with screen := t.screen.type c } := by
  obtain ⟨⟨hmake, hback, hcaps, -, h0, h42, h54⟩, hletter⟩ := h
  have hafter : t.keyboard.after input = t.keyboard := by
    rw [PS2KeyboardContext.after, hmake, if_neg (by omega), if_neg hcaps]
  have hletter' : t.keyboard.letter input = c := by
    rw [← hletter]
    exact PS2KeyboardContext.letter_congr (by rw [hshift, flag_ne_zero]) input
  rw [press, hafter, hletter', if_neg hback, if_pos ⟨hc, hmake⟩]

/-- The left shift key types nothing. -/
theorem letter_shift (context : PS2KeyboardContext) :
    context.letter 0x2A = 0 ∧ context.letter 0xAA = 0 := by
  have hlong : (chars "LShift").length ≠ 1 := by decide
  have hname : ∀ input : BitVec 8, input &&& 0x7F = 0x2A →
      ps2Names.getD (input &&& 0x7F).toNat "" = "LShift" := by
    intro input hinput
    rw [hinput]
    rfl
  refine ⟨?_, ?_⟩
  · rw [PS2KeyboardContext.letter, hname _ (by decide), if_neg (by decide), if_neg (by decide),
      if_pos hlong]
  · rw [PS2KeyboardContext.letter, hname _ (by decide), if_neg (by decide), if_neg (by decide),
      if_pos hlong]

theorem press_shift : t.press 0x2A = { t with keyboard :=
    { t.keyboard with shiftModifier := logicalNot t.keyboard.capsLock } } := by
  rw [press, (letter_shift _).1]
  rfl

theorem release_shift : t.press 0xAA = { t with keyboard :=
    { t.keyboard with shiftModifier := t.keyboard.capsLock } } := by
  rw [press, (letter_shift _).2]
  rfl

/-- Keys that leave the flags as they are and type the text. -/
def KeysFor (codes text : List (BitVec 8)) : Prop :=
  (∀ code ∈ codes, (code &&& 0x7F).toNat < ps2Names.length) ∧
    ∀ t : Terminal, t.keyboard.shiftModifier = 0 → t.keyboard.capsLock = 0 →
      codes.foldl press t = { t with screen := text.foldl Screen.type t.screen }

theorem keysFor_character (hc : c ∈ typedChars) : ∃ codes, KeysFor codes [c] := by
  have hne := ((mem_typedChars_iff c).mp hc).1
  obtain ⟨shift, input, h⟩ := exists_types hc
  have hindex : (input &&& 0x7F).toNat < ps2Names.length := by
    rw [h.1.1]
    exact h.1.2.2.2.1
  cases shift with
  | false =>
    refine ⟨[input], fun code hcode => ?_, fun t hshift _ => ?_⟩
    · rw [List.mem_singleton.mp hcode]
      exact hindex
    · exact press_types h hne (by rw [hshift]; decide)
  | true =>
    refine ⟨[0x2A, input, 0xAA], fun code hcode => ?_, fun t hshift hcaps => ?_⟩
    · simp only [List.mem_cons, List.not_mem_nil, or_false] at hcode
      rcases hcode with rfl | rfl | rfl
      · decide
      · exact hindex
      · decide
    · obtain ⟨⟨shift, control, alt, caps⟩, scr⟩ := t
      dsimp only at hshift hcaps
      subst hshift hcaps
      have hheld : logicalNot 0 ≠ 0 ↔ true = true := by decide
      rw [List.foldl_cons, List.foldl_cons, press_shift, press_types h hne hheld, List.foldl_cons,
        release_shift]
      rfl

/-- Every text over these characters can be typed. -/
theorem exists_keysFor {text : List (BitVec 8)} (h : ∀ c ∈ text, c ∈ typedChars) :
    ∃ codes, KeysFor codes text := by
  induction text with
  | nil => exact ⟨[], fun _ hcode => absurd hcode List.not_mem_nil, fun _ _ _ => rfl⟩
  | cons c text ih =>
    obtain ⟨first, hfirst, hpress⟩ := keysFor_character (h c (List.mem_cons_self ..))
    obtain ⟨rest, hrest, hpress'⟩ := ih fun c' hc' => h c' (List.mem_cons_of_mem _ hc')
    refine ⟨first ++ rest, fun code hcode => ?_, fun t hshift hcaps => ?_⟩
    · exact (List.mem_append.mp hcode).elim (hfirst code) (hrest code)
    · rw [List.foldl_append, hpress t hshift hcaps]
      exact hpress' _ hshift hcaps

end Terminal

end FeralKernel
