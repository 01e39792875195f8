import FeralKernel.Console.PrintRun

/-!
# Padding in formats

A digit behind `%` takes a branch of `KiPrintFmt` that moves the index by itself, over the
character it counts with, and then leaves the directive like every other branch does.  So
the head of the loop can come to stand behind the end of the format, and a conversion
letter behind the padding is read as text.
-/

namespace FeralKernel

open Verif.Program Verif.Bytes

/-! ## The characters that are read -/

/-- No character behind the end is read, and the call returns once it has come there.  In
every round all that is recorded are loads of the format up to its terminator and accesses to
what the round prints, so it is in the whole run, and the last of it is the load of the
terminator. -/
structure ReadsToEnd (literal : String → Ptr) (buf fmt : Ptr) (args : Nat → BitVec 64)
    (text : List (BitVec 8)) (values : List FmtValue) (s : Machine (List ConsoleCall)) :
    Prop where
  inside : ∀ st t, Rounds (printFmtRound literal buf fmt args) FmtPos.start.state s st t →
    Ensures (printFmtRound literal buf fmt args st) t fun _ u =>
      Records (RoundRecords literal buf fmt args text values st
        (t.mem (phys (fmt + st.index)))) t u
  returns : Returns (kiPrintFmt literal buf fmt args) s fun status t =>
    status = .success ∧ Records (RunRecords literal buf fmt args text values) s t ∧
      t.log.head? = some (.read (fmt + BitVec.ofNat 64 text.length) 1)

section Reads

variable {literal : String → Ptr} {buf fmt : Ptr} {args : Nat → BitVec 64}
variable {text : List (BitVec 8)} {values : List FmtValue} {s : Machine (List ConsoleCall)}

/-- The buffer leaves a format no room for the whole address space. -/
theorem FmtInput.length_lt {m : Mem} (h : FmtInput m literal buf fmt args text values) :
    text.length + 1 < 2 ^ 64 := by
  have hshort := h.format.short
  by_contra hlong
  have hbuf : fmt + BitVec.ofNat 64 (buf - fmt).toNat = buf := by
    rw [BitVec.ofNat_toNat, BitVec.setWidth_eq, BitVec.add_comm]
    exact BitVec.sub_add_cancel buf fmt
  have hapart := h.format.apart (buf - fmt).toNat (by have := (buf - fmt).isLt; omega)
  rw [hbuf] at hapart
  omega

/-- Without a cut every round is at a place in the format. -/
theorem rounds_fmtAt (h : FmtInput s.mem literal buf fmt args text values)
    (hcut : ∀ c, FmtToken.cut c ∉ fmtTokens false text)
    (hkinds : FmtSuffices (fmtTokens false text) values) {st : FmtState}
    {t : Machine (List ConsoleCall)}
    (hround : Rounds (printFmtRound literal buf fmt args) FmtPos.start.state s st t) :
    ∃ p : FmtPos, st = p.state ∧ p.index ≤ text.length ∧
      Console.FmtAt recorder literal buf fmt args text values s s.statics p t := by
  have hall := hround.invariant (fun st t => ∃ p : FmtPos, st = p.state ∧
    p.index ≤ text.length ∧ (∀ c, FmtToken.cut c ∉ p.tokens text) ∧
    Console.FmtAt recorder literal buf fmt args text values s s.statics p t)
    ⟨FmtPos.start, rfl, Nat.zero_le _, hcut, Console.FmtAt.start rfl hkinds⟩ ?_
  · obtain ⟨p, hst, hle, -, hat⟩ := hall
    exact ⟨p, hst, hle, hat⟩
  · intro st t hI
    obtain ⟨p, rfl, hle, hcut, hat⟩ := hI
    by_cases hend : p.index = text.length
    · refine (printFmtRound_end (hat.input h.recorded).toFmtInput hend).ensures.mono ?_
      intro r u hu st' hst'
      rw [hu.1] at hst'
      cases hst'
    · have hi : p.index < text.length := by omega
      refine (hat.round h.recorded hi).ensures.mono ?_
      intro r u hu st' hst'
      obtain ⟨rfl, hat', -⟩ := hu
      cases hst'
      exact ⟨_, rfl, FmtPos.next_index_le hi hcut,
        fun c => FmtPos.not_cut_next h.format.visible hi (hcut c), hat'⟩

/-- A round in the format records nothing but what it may. -/
theorem round_inside {p : FmtPos} {t : Machine (List ConsoleCall)}
    (h : FmtInput s.mem literal buf fmt args text values) (hle : p.index ≤ text.length)
    (hat : Console.FmtAt recorder literal buf fmt args text values s s.statics p t) :
    Returns (printFmtRound literal buf fmt args p.state) t fun _ u =>
      Records (RoundRecords literal buf fmt args text values p.state
        (t.mem (phys (fmt + p.state.index)))) t u := by
  have hin := (hat.input h.recorded).toFmtInput
  by_cases hend : p.index = text.length
  · refine (printFmtRound_end hin hend).mono fun r u hu => ?_
    rw [hu.2]
    exact (Records.refl _ t).note (Or.inl ⟨text.length, Nat.lt_succ_self _, rfl⟩) rfl
  · have hi : p.index < text.length := by omega
    have hcur : t.mem (phys (fmt + p.state.index)) = text[p.index] := by
      rw [FmtPos.state, hin.format.bytes p.index hle, List.getD_eq_getElem _ _ hi]
    rw [hcur]
    exact (hat.round h.recorded hi).mono fun r u hu => hu.2.2 trivial

/-- A cut lets the loop come to stand behind the end, outside of directives. -/
theorem rounds_past_end (h : FmtInput s.mem literal buf fmt args text values) {c : BitVec 8} :
    ∀ (k : Nat) (p : FmtPos) (t : Machine (List ConsoleCall)), p.index + k = text.length →
      Rounds (printFmtRound literal buf fmt args) FmtPos.start.state s p.state t →
      Console.FmtAt recorder literal buf fmt args text values s s.statics p t →
      FmtToken.cut c ∈ p.tokens text →
      ∃ st u, Rounds (printFmtRound literal buf fmt args) FmtPos.start.state s st u ∧
        FmtInput u.mem literal buf fmt args text values ∧ st.upState = false ∧
        st.index = BitVec.ofNat 64 (text.length + 1) := by
  intro k
  induction k using Nat.strong_induction_on with
  | _ k ih =>
    intro p t hk hround hat hcut
    have hi : p.index < text.length := by
      by_contra hend
      rw [FmtPos.tokens, List.drop_eq_nil_iff.mpr (by omega), fmtTokens_nil] at hcut
      cases hcut
    obtain ⟨u, hround', hat', -⟩ := hround.advance (hat.round h.recorded hi)
    have hlt := p.lt_next text[p.index]
    rw [FmtPos.tokens_next h.format.visible hi, List.mem_append] at hcut
    rcases hcut with hnow | hlater
    · -- the digit is the last character
      obtain ⟨hup, hdigit, hzero⟩ := FmtPos.eq_of_token_cut (Option.mem_toList.mp hnow)
      have hlast : text.length = p.index + 1 := by
        by_contra hne
        rw [List.getD_eq_getElem _ _ (by omega : p.index + 1 < text.length)] at hzero
        exact h.format.visible _ (List.getElem_mem _) hzero
      have hnext : (p.next text[p.index]).state =
          { index := BitVec.ofNat 64 (text.length + 1), upState := false, arg := p.arg } := by
        rw [FmtPos.next, if_pos hup, if_pos hdigit, hlast]
        rfl
      rw [hnext] at hround'
      exact ⟨_, u, hround', (hat'.input h.recorded).toFmtInput, rfl, rfl⟩
    · have hle : (p.next text[p.index]).index ≤ text.length := by
        by_contra hend
        rw [FmtPos.tokens, List.drop_eq_nil_iff.mpr (by omega), fmtTokens_nil] at hlater
        cases hlater
      exact ih (text.length - (p.next text[p.index]).index) (by omega) _ u (by omega) hround' hat'
        hlater

/-- Outside of directives a round loads the character it stands at, wherever that is. -/
theorem printFmtRound_loads (h : FmtInput s.mem literal buf fmt args text values) {st : FmtState}
    (hst : st.upState = false) :
    Returns (printFmtRound literal buf fmt args st) s fun _ t =>
      ∃ new, t.log = new ++ .read (fmt + st.index) 1 :: s.log := by
  rw [printFmtRound, printFmtRoundWith, returns_bind, returns_load8]
  generalize s.mem (phys (fmt + st.index)) = c
  by_cases hzero : c = 0
  · rw [if_neg (fun hne => hne hzero), returns_pure]
    exact ⟨[], rfl⟩
  rw [if_pos hzero]
  by_cases hp : c = ch '%'
  · rw [printFmtStepWith, if_pos ⟨hp, hst⟩, pure_bind, returns_pure]
    exact ⟨[], rfl⟩
  · refine (Console.printLiteralWith_spec (C := recorder) (s := s.note _) rfl h.recorded hp hst
      none).bind fun st' t ht => ?_
    rw [returns_pure]
    obtain ⟨new, hnew, -⟩ := ht.2.recorded.2.2
    exact ⟨new, hnew⟩

/-- The character behind the terminator is none of what a round outside of directives may
load, even where a literal lies there. -/
theorem not_roundRecords_behind {m : Mem} (h : FmtInput m literal buf fmt args text values)
    {st : FmtState} (hst : st.upState = false)
    (hindex : st.index = BitVec.ofNat 64 (text.length + 1)) :
    ¬ RoundRecords literal buf fmt args text values st (m (phys (fmt + st.index)))
      (.read (fmt + st.index) 1) := by
  have hlt := h.length_lt
  have hlit : ∀ {name : String} {c : BitVec 8}, name ∈ ["", " ", "%"] →
      m (phys (fmt + st.index)) = c →
      LoadsFrom (literal name) ((chars name).length + 1) (.read (fmt + st.index) 1) →
      c = 0 ∨ c ∈ chars name := by
    intro name c hname hc he
    obtain ⟨k, hk, heq⟩ := he
    injection heq with ha
    rw [ha, (h.literals name hname).bytes k (by omega)] at hc
    rcases Nat.lt_or_ge k (chars name).length with hin | hout
    · rw [List.getD_eq_getElem _ _ hin] at hc
      exact Or.inr (hc ▸ List.getElem_mem hin)
    · rw [List.getD_eq_default _ _ hout] at hc
      exact Or.inl hc.symm
  rintro (⟨k, hk, heq⟩ | hprints)
  · injection heq with ha
    have hnat := congrArg BitVec.toNat ((BitVec.add_right_inj fmt).mp ha)
    rw [hindex, BitVec.toNat_ofNat, BitVec.toNat_ofNat, Nat.mod_eq_of_lt hlt,
      Nat.mod_eq_of_lt (by omega)] at hnat
    omega
  · cases hprints with
    | string hup => exact absurd hup (by rw [hst]; decide)
    | number hup => exact absurd hup (by rw [hst]; decide)
    | percent hup => exact absurd hup (by rw [hst]; decide)
    | newline _ hcur he => exact absurd (hlit (by decide) hcur he) (by decide)
    | tab _ hcur he => exact absurd (hlit (by decide) hcur he) (by decide)

theorem not_readsToEnd (h : FmtInput s.mem literal buf fmt args text values)
    (hkinds : FmtSuffices (fmtTokens false text) values) {c : BitVec 8}
    (hcut : FmtToken.cut c ∈ fmtTokens false text) :
    ¬ ReadsToEnd literal buf fmt args text values s := by
  intro hreads
  obtain ⟨st, u, hround, hin, hst, hindex⟩ := rounds_past_end h text.length FmtPos.start s
    (Nat.zero_add _) .first (Console.FmtAt.start rfl hkinds) hcut
  have hloads := printFmtRound_loads hin hst
  obtain ⟨r, t, -, ⟨new, hnew, hall⟩, more, hmore⟩ :=
    ((hreads.inside st u hround).returns hloads).and hloads
  have hmem : Event.read (fmt + st.index) 1 ∈ new := by
    have hlog : new ++ u.log = (more ++ [.read (fmt + st.index) 1]) ++ u.log := by
      rw [← hnew, hmore]
      simp
    rw [List.append_cancel_right hlog]
    exact List.mem_append_right _ (List.mem_singleton.mpr rfl)
  exact not_roundRecords_behind hin hst hindex (hall _ hmem)

/-- `KiPrintFmt` stays in its format exactly when the format does not end in a digit
behind a `%`. -/
theorem kiPrintFmt_readsToEnd_iff (h : FmtInput s.mem literal buf fmt args text values)
    (hkinds : FmtSuffices (fmtTokens false text) values) :
    ReadsToEnd literal buf fmt args text values s ↔
      ∀ c, FmtToken.cut c ∉ fmtTokens false text := by
  constructor
  · intro hreads c hcut
    exact not_readsToEnd h hkinds hcut hreads
  · intro hcut
    refine ⟨fun st t hround => ?_, ?_⟩
    · obtain ⟨p, rfl, hle, hat⟩ := rounds_fmtAt h hcut hkinds hround
      exact (round_inside h hle hat).ensures
    · refine (kiPrintFmt_tokens h hcut hkinds).mono fun status t ht => ?_
      exact ⟨ht.1, ht.2.2⟩

end Reads

theorem fmtMachine_readsToEnd :
    ReadsToEnd fmtLiteral 0x4000 0x2000 fmtArgs (chars "%s: %i%%\n")
      [.string (chars "ok"), .int32 (-5)] fmtMachine := by
  have htokens : fmtTokens false (chars "%s: %i%%\n") =
      [.item (.directive (ch 's')), .item (.literal (ch ':')), .item (.literal (ch ' ')),
        .item (.directive (ch 'i')), .item (.directive (ch '%')), .item (.literal (ch '\n'))] := by
    decide
  refine (kiPrintFmt_readsToEnd_iff fmtMachine_input ?_).mpr ?_
  · rw [htokens, FmtSuffices]
    decide
  · rw [htokens]
    intro c hc
    simp only [List.mem_cons, reduceCtorEq, or_self, List.not_mem_nil] at hc

/-- A format at 8 KiB with the literals of the code below it. -/
def formatMachine (format : List (BitVec 8)) : Machine (List ConsoleCall) where
  mem := block (block (block (fun _ => 0) 0x1010 (chars " ")) 0x1020 (chars "%")) 0x2000 format
  log := []
  statics := []

theorem formatMachine_input {format : List (BitVec 8)} {args : Nat → BitVec 64}
    {values : List FmtValue} (hlen : format.length < 0x1000) (hvisible : ∀ c ∈ format, c ≠ 0)
    (hslots : ∀ k, ∀ v : FmtValue, values[k]? = some v →
      v.In (formatMachine format).mem 0x4000 (args k)) :
    FmtInput (formatMachine format).mem fmtLiteral 0x4000 0x2000 args format values := by
  have hbelow : ∀ x, x < 0x2000 → (formatMachine format).mem x = (formatMachine []).mem x := by
    intro x hx
    show block _ _ _ _ = block _ _ [] _
    rw [block_nil, block_outside (Or.inl hx)]
  have hphys : ∀ k, k ≤ format.length → phys (0x2000 + BitVec.ofNat 64 k) = 0x2000 + k := by
    intro k hk
    exact phys_add (n := 0x1000) (by unfold Spans; decide) (by omega)
  refine ⟨by decide, by unfold Spans; decide, ⟨⟨by decide, by omega, fun k hk => ?_, hvisible⟩,
    fun k hk => ?_⟩, fun name hname => ?_, hslots⟩
  · rw [hphys k hk]
    rcases Nat.lt_or_ge k format.length with hlt | hge
    · exact block_inside _ _ hlt
    · show block _ _ _ _ = _
      rw [block_outside (by omega), List.getD_eq_default _ _ hge,
        block_outside (by right; show 0x1021 ≤ _; omega),
        block_outside (by right; show 0x1011 ≤ _; omega)]
  · rw [hphys k hk, show phys 0x4000 = 0x4000 from rfl]
    omega
  · have hheld : HeldString (formatMachine []).mem 0x4000 (fmtLiteral name) (chars name) ∧
        ∀ k, k ≤ (chars name).length → phys (fmtLiteral name + BitVec.ofNat 64 k) < 0x2000 := by
      rcases List.mem_cons.mp hname with rfl | hname
      · exact ⟨heldString_of_all (by decide) (by decide) (by decide) (by decide) (by decide),
          by decide⟩
      · rcases List.mem_cons.mp hname with rfl | hname
        · exact ⟨heldString_of_all (by decide) (by decide) (by decide) (by decide) (by decide),
            by decide⟩
        · rw [List.mem_singleton.mp hname]
          exact ⟨heldString_of_all (by decide) (by decide) (by decide) (by decide) (by decide),
            by decide⟩
    obtain ⟨hstring, hlow⟩ := hheld
    exact ⟨hstring.toCString.congr fun k hk => hbelow _ (hlow k hk), hstring.apart⟩

/-- `KiPrintFmt("%5")` reads on behind the terminator. -/
theorem cut_format_reads_on :
    FmtInput (formatMachine (chars "%5")).mem fmtLiteral 0x4000 0x2000 (fun _ => 0)
      (chars "%5") [] ∧
    FmtSuffices (fmtTokens false (chars "%5")) [] ∧
    ¬ ReadsToEnd fmtLiteral 0x4000 0x2000 (fun _ => 0) (chars "%5") []
      (formatMachine (chars "%5")) := by
  have hinput : FmtInput (formatMachine (chars "%5")).mem fmtLiteral 0x4000 0x2000 (fun _ => 0)
      (chars "%5") [] :=
    formatMachine_input (by decide) (by decide) fun k v hv => by cases hv
  have hkinds : FmtSuffices (fmtTokens false (chars "%5")) [] := by
    rw [FmtSuffices]
    decide
  exact ⟨hinput, hkinds, not_readsToEnd (c := ch '5') hinput hkinds (by decide)⟩

/-! ## Conversions with padding -/

/-- The conversion letters that take a value. -/
inductive FmtLetter where
  | s
  | i
  | l
  | u
  | x
deriving DecidableEq

def FmtLetter.char : FmtLetter → BitVec 8
  | .s => ch 's'
  | .i => ch 'i'
  | .l => ch 'l'
  | .u => ch 'u'
  | .x => ch 'x'

def FmtLetter.kind : FmtLetter → FmtKind
  | .s => .string
  | .i => .int32
  | .l => .int64
  | .u => .uint64
  | .x => .uint64

abbrev Digit : Type := { c : BitVec 8 // IsDigit c }

/-- A format in pieces: a character that is no `%`, or a `%` with its letter and perhaps a
pad digit and a count between them. -/
inductive FmtPiece where
  | text (c : { c : BitVec 8 // c ≠ ch '%' })
  | conversion (padding : Option (Digit × Digit)) (letter : FmtLetter)

namespace FmtPiece

def paddingChars : Option (Digit × Digit) → List (BitVec 8)
  | none => []
  | some (pad, count) => [pad.val, count.val]

def chars : FmtPiece → List (BitVec 8)
  | .text c => [c.val]
  | .conversion padding letter => ch '%' :: (paddingChars padding ++ [letter.char])

def kind : FmtPiece → Option FmtKind
  | .text _ => none
  | .conversion _ letter => some letter.kind

/-- What the padding stands for: the pad digit, as often as the count says. -/
def paddingText : Option (Digit × Digit) → List (BitVec 8)
  | none => []
  | some (pad, count) => List.replicate (count.val - ch '0').toNat pad.val

/-- The calls a piece stands for, all of them on `BackingFunctions`. -/
def calls (empty : Ptr) (value : Option FmtValue) : FmtPiece → List ConsoleCall
  | .text c => (FmtItem.literal c.val).calls empty none
  | .conversion padding letter =>
    (paddingText padding).map .putChar ++
      match value with
      | some v => (v.text letter.char).map .putChar
      | none => []

def Padded : FmtPiece → Prop
  | .text _ => False
  | .conversion padding _ => padding.isSome = true

instance : DecidablePred Padded
  | .text _ => inferInstanceAs (Decidable False)
  | .conversion _ _ => inferInstanceAs (Decidable (_ = true))

end FmtPiece

/-- The format that the pieces spell. -/
def piecesText (pieces : List FmtPiece) : List (BitVec 8) := pieces.flatMap FmtPiece.chars

/-- The number of conversions. -/
def conversions (pieces : List FmtPiece) : Nat := (pieces.filterMap FmtPiece.kind).length

def pieceCalls (empty : Ptr) : List FmtPiece → List FmtValue → List ConsoleCall
  | [], _ => []
  | piece :: rest, values =>
    piece.calls empty values.head? ++
      pieceCalls empty rest (if piece.kind.isSome then values.tail else values)

/-- The arguments stay in step with the conversions.  The calls are those of the pieces,
and whenever the loop is at a conversion letter, it is in a directive and has taken one
argument for each conversion before. -/
structure PrintsInStep (literal : String → Ptr) (buf fmt : Ptr) (args : Nat → BitVec 64)
    (pieces : List FmtPiece) (values : List FmtValue) (s : Machine (List ConsoleCall)) :
    Prop where
  calls : Returns (kiPrintFmt literal buf fmt args) s fun status t =>
    status = .success ∧ t.statics = s.statics ++ pieceCalls (literal "") pieces values
  letters : ∀ pre padding letter post, pieces = pre ++ .conversion padding letter :: post →
    ∀ st t, Rounds (printFmtRound literal buf fmt args) FmtPos.start.state s st t →
      st.index = BitVec.ofNat 64
        ((piecesText pre).length + 1 + (FmtPiece.paddingChars padding).length) →
      st.upState = true ∧ st.arg = conversions pre

/-- There are arguments enough, of the kinds that the conversions take. -/
def PiecesMatch (pieces : List FmtPiece) (values : List FmtValue) : Prop :=
  pieces.filterMap FmtPiece.kind <+: values.map FmtValue.kind

theorem FmtLetter.directive_kind (letter : FmtLetter) :
    (FmtItem.directive letter.char).kind = some letter.kind := by
  cases letter <;> rfl

theorem FmtLetter.not_isDigit (letter : FmtLetter) : ¬ IsDigit letter.char := by
  cases letter <;> decide

theorem piecesText_append (pre post : List FmtPiece) :
    piecesText (pre ++ post) = piecesText pre ++ piecesText post := by
  rw [piecesText, List.flatMap_append]
  rfl

theorem piecesText_cons (piece : FmtPiece) (rest : List FmtPiece) :
    piecesText (piece :: rest) = piece.chars ++ piecesText rest := rfl

theorem conversions_snoc (pre : List FmtPiece) (piece : FmtPiece) :
    conversions (pre ++ [piece]) =
      if piece.kind.isSome then conversions pre + 1 else conversions pre := by
  rw [conversions, List.filterMap_append, List.length_append]
  cases hk : piece.kind with
  | none => simp [hk, conversions]
  | some k => simp [hk, conversions]

/-- The value that a conversion has to print. -/
theorem PiecesMatch.value {pieces pre post : List FmtPiece} {values : List FmtValue}
    {padding : Option (Digit × Digit)} {letter : FmtLetter} (h : PiecesMatch pieces values)
    (hpieces : pieces = pre ++ .conversion padding letter :: post) :
    ∃ v, values[conversions pre]? = some v ∧ v.kind = letter.kind := by
  obtain ⟨more, hmore⟩ := h
  have hkind : (values.map FmtValue.kind)[conversions pre]? = some letter.kind := by
    rw [← hmore, hpieces, List.filterMap_append, List.append_assoc, conversions,
      List.getElem?_append_right (Nat.le_refl _), Nat.sub_self]
    rfl
  rw [List.getElem?_map, Option.map_eq_some_iff] at hkind
  exact hkind

/-! ### The pieces without padding -/

/-- The token of a piece that has no padding. -/
def FmtPiece.token : FmtPiece → FmtToken
  | .text c => .item (.literal c.val)
  | .conversion _ letter => .item (.directive letter.char)

theorem FmtPiece.token_kind (piece : FmtPiece) : piece.token.kind = piece.kind := by
  cases piece with
  | text c => rfl
  | conversion padding letter => exact letter.directive_kind

theorem FmtPiece.chars_conversion {padding : Option (Digit × Digit)} {letter : FmtLetter}
    (h : ¬ (FmtPiece.conversion padding letter).Padded) :
    (FmtPiece.conversion padding letter).chars = [ch '%', letter.char] ∧
      FmtPiece.paddingText padding = [] ∧ FmtPiece.paddingChars padding = [] := by
  cases padding with
  | none => exact ⟨rfl, rfl, rfl⟩
  | some pair => exact absurd rfl h

section Unpadded

variable {pieces : List FmtPiece} (hplain : ∀ piece ∈ pieces, ¬ piece.Padded)

include hplain in
theorem fmtTokens_pieces : fmtTokens false (piecesText pieces) = pieces.map FmtPiece.token := by
  induction pieces with
  | nil => rfl
  | cons piece rest ih =>
    have hrest := ih fun piece hp => hplain piece (List.mem_cons_of_mem _ hp)
    rw [piecesText_cons, List.map_cons, ← hrest]
    cases piece with
    | text c =>
      show fmtTokens false (c.val :: piecesText rest) = _
      rw [fmtTokens, if_neg c.property]
      rfl
    | conversion padding letter =>
      have hchars := (FmtPiece.chars_conversion (hplain _ (List.mem_cons_self ..))).1
      rw [hchars]
      show fmtTokens false (ch '%' :: letter.char :: piecesText rest) = _
      rw [fmtTokens, if_pos rfl, fmtTokens_directive letter.not_isDigit]
      rfl

include hplain in
theorem tokenCalls_pieces (empty : Ptr) : ∀ values : List FmtValue,
    tokenCalls empty (pieces.map FmtPiece.token) values = pieceCalls empty pieces values := by
  induction pieces with
  | nil =>
    intro values
    rfl
  | cons piece rest ih =>
    intro values
    rw [List.map_cons, tokenCalls, pieceCalls, piece.token_kind,
      ih fun piece hp => hplain piece (List.mem_cons_of_mem _ hp)]
    congr 1
    cases piece with
    | text c => rfl
    | conversion padding letter =>
      have hpadding := (FmtPiece.chars_conversion (hplain _ (List.mem_cons_self ..))).2.1
      cases values.head? with
      | none =>
        show (FmtItem.directive letter.char).calls empty none =
          (FmtPiece.paddingText padding).map .putChar ++ []
        rw [hpadding]
        simp only [FmtItem.calls, letter.directive_kind]
        rfl
      | some v =>
        show (FmtItem.directive letter.char).calls empty (some v) =
          (FmtPiece.paddingText padding).map .putChar ++ (v.text letter.char).map .putChar
        rw [hpadding]
        simp only [FmtItem.calls, letter.directive_kind]
        rfl

end Unpadded

/-! ### The loop over the pieces -/

section Pieces

variable {literal : String → Ptr} {buf fmt : Ptr} {args : Nat → BitVec 64}
variable {text : List (BitVec 8)} {values : List FmtValue} {s t : Machine (List ConsoleCall)}

theorem FmtPos.directive_of_token_kind {p : FmtPos} {cur count : BitVec 8} {k : FmtKind}
    (h : (p.token cur count).bind FmtToken.kind = some k) :
    p.upState = true ∧ (FmtItem.directive cur).kind = some k := by
  rw [token] at h
  split at h
  case isTrue hup =>
    split at h
    case isTrue => split at h <;> cases h
    case isFalse => exact ⟨hup, h⟩
  case isFalse => split at h <;> cases h

/-- One round at the character `c`. -/
theorem printFmtRound_at (h : FmtInput t.mem literal buf fmt args text values) {p : FmtPos}
    {before rest : List (BitVec 8)} {c : BitVec 8} (htext : text = before ++ c :: rest)
    (hindex : p.index = before.length)
    (hkind : p.upState = true → ∀ k, (FmtItem.directive c).kind = some k →
      ∃ v, values[p.arg]? = some v ∧ v.kind = k) :
    Returns (printFmtRound literal buf fmt args p.state) t fun r u =>
      r = .inr (p.next c).state ∧ SameOutside buf t.mem u.mem := by
  have hi : p.index < text.length := by
    rw [htext, List.length_append, List.length_cons]
    omega
  have hcur : text[p.index] = c := by
    simp [htext, hindex]
  have hround := printFmtRound_spec h hi
  rw [hcur] at hround
  refine hround fun k hk => ?_
  obtain ⟨hup, hdirective⟩ := FmtPos.directive_of_token_kind hk
  exact hkind hup k hdirective

/-- The loop comes to `p`, with memory as it was but for the buffer. -/
def FmtReached (literal : String → Ptr) (buf fmt : Ptr) (args : Nat → BitVec 64)
    (s : Machine (List ConsoleCall)) (p : FmtPos) : Prop :=
  ∃ t, Rounds (printFmtRound literal buf fmt args) FmtPos.start.state s p.state t ∧
    SameOutside buf s.mem t.mem

theorem FmtReached.step {p : FmtPos} (hp : FmtReached literal buf fmt args s p)
    (h : FmtInput s.mem literal buf fmt args text values) {before rest : List (BitVec 8)}
    {c : BitVec 8} (htext : text = before ++ c :: rest) (hindex : p.index = before.length)
    (hkind : p.upState = true → ∀ k, (FmtItem.directive c).kind = some k →
      ∃ v, values[p.arg]? = some v ∧ v.kind = k) :
    FmtReached literal buf fmt args s (p.next c) := by
  obtain ⟨t, hround, hsame⟩ := hp
  obtain ⟨u, hround', hsame'⟩ :=
    hround.advance (printFmtRound_at (h.of_sameOutside hsame) htext hindex hkind)
  exact ⟨u, hround', hsame.trans hsame'⟩

variable {pieces : List FmtPiece}

/-- Where the loop is between two pieces. -/
def FmtPos.after (pre : List FmtPiece) : FmtPos :=
  { index := (piecesText pre).length, upState := false, arg := conversions pre }

/-- Where it is behind the `%` of the next one. -/
def FmtPos.inside (pre : List FmtPiece) : FmtPos :=
  { index := (piecesText pre).length + 1, upState := true, arg := conversions pre }

theorem FmtPos.after_next_text (pre : List FmtPiece) (c : { c : BitVec 8 // c ≠ ch '%' }) :
    (FmtPos.after pre).next c.val = FmtPos.after (pre ++ [.text c]) := by
  rw [after, next, if_neg Bool.false_ne_true, decide_eq_false c.property, after, piecesText_append,
    conversions_snoc, List.length_append]
  rfl

theorem FmtPos.after_next_percent (pre : List FmtPiece) :
    (FmtPos.after pre).next (ch '%') = FmtPos.inside pre := by
  rw [after, next, if_neg Bool.false_ne_true, decide_eq_true rfl]
  rfl

theorem FmtPos.inside_next {pre : List FmtPiece} {padding : Option (Digit × Digit)}
    {letter : FmtLetter} (hplain : ¬ (FmtPiece.conversion padding letter).Padded) :
    (FmtPos.inside pre).next letter.char =
      FmtPos.after (pre ++ [.conversion padding letter]) := by
  have hchars := (FmtPiece.chars_conversion hplain).1
  rw [inside, next, if_pos rfl, if_neg letter.not_isDigit, after, piecesText_append,
    conversions_snoc, List.length_append, piecesText_cons, hchars, letter.directive_kind]
  rfl

/-- The loop goes through the pieces as long as none of them has padding. -/
theorem reached_after (h : FmtInput s.mem literal buf fmt args (piecesText pieces) values)
    (hmatch : PiecesMatch pieces values) (pre : List FmtPiece) : ∀ post,
    pieces = pre ++ post → (∀ piece ∈ pre, ¬ piece.Padded) →
      FmtReached literal buf fmt args s (FmtPos.after pre) := by
  induction pre using List.reverseRecOn with
  | nil =>
    intro post _ _
    exact ⟨s, .first, SameOutside.refl _ _⟩
  | append_singleton pre piece ih =>
    intro post hpieces hplain
    rw [List.append_assoc, List.singleton_append] at hpieces
    have hpre := ih _ hpieces fun piece hp => hplain piece (List.mem_append_left _ hp)
    have hlast := hplain piece (List.mem_append_right _ (List.mem_singleton.mpr rfl))
    have htext : piecesText pieces = piecesText pre ++ (piece.chars ++ piecesText post) := by
      rw [hpieces, piecesText_append, piecesText_cons]
    cases piece with
    | text c =>
      have hnext := hpre.step h htext rfl fun hup => nomatch hup
      rw [FmtPos.after_next_text] at hnext
      exact hnext
    | conversion padding letter =>
      rw [(FmtPiece.chars_conversion hlast).1] at htext
      have hinside := hpre.step h htext rfl fun hup => nomatch hup
      rw [FmtPos.after_next_percent] at hinside
      have htext' : piecesText pieces =
          (piecesText pre ++ [ch '%']) ++ letter.char :: piecesText post := by
        rw [htext]
        simp
      have hnext := hinside.step h htext' (by simp [FmtPos.inside]) fun _ k hk => by
        rw [letter.directive_kind] at hk
        cases hk
        exact hmatch.value hpieces
      rw [FmtPos.inside_next hlast] at hnext
      exact hnext

/-- The loop is between two pieces, or behind the `%` of one. -/
def AtPieces (pieces : List FmtPiece) (st : FmtState) : Prop :=
  ∃ pre post, pieces = pre ++ post ∧ (st = (FmtPos.after pre).state ∨
    (∃ padding letter rest, post = .conversion padding letter :: rest) ∧
      st = (FmtPos.inside pre).state)

/-- Without padding every round is at the pieces. -/
theorem rounds_pieces (h : FmtInput s.mem literal buf fmt args (piecesText pieces) values)
    (hmatch : PiecesMatch pieces values) (hplain : ∀ piece ∈ pieces, ¬ piece.Padded)
    {st : FmtState} {t : Machine (List ConsoleCall)}
    (hround : Rounds (printFmtRound literal buf fmt args) FmtPos.start.state s st t) :
    AtPieces pieces st := by
  have hall := hround.invariant (fun st t => SameOutside buf s.mem t.mem ∧ AtPieces pieces st)
    ⟨SameOutside.refl _ _, [], pieces, rfl, Or.inl rfl⟩ ?_
  · exact hall.2
  · intro st t hI
    obtain ⟨hsame, pre, post, hpieces, hst⟩ := hI
    have hinput := h.of_sameOutside hsame
    have htext : piecesText pieces = piecesText pre ++ piecesText post := by
      rw [hpieces, piecesText_append]
    have hgo : ∀ {p : FmtPos}, Returns (printFmtRound literal buf fmt args st) t
        (fun r u => r = .inr p.state ∧ SameOutside buf t.mem u.mem) → AtPieces pieces p.state →
        Ensures (printFmtRound literal buf fmt args st) t fun r u => ∀ b', r = .inr b' →
          SameOutside buf s.mem u.mem ∧ AtPieces pieces b' := by
      intro p hreturns hplace
      refine hreturns.ensures.mono ?_
      intro r u hu b' hb'
      obtain ⟨rfl, hsame'⟩ := hu
      cases hb'
      exact ⟨hsame.trans hsame', hplace⟩
    rcases hst with rfl | ⟨⟨padding, letter, rest, rfl⟩, rfl⟩
    · cases post with
      | nil =>
        rw [List.append_nil] at hpieces
        refine (printFmtRound_end hinput (by rw [hpieces]; rfl)).ensures.mono ?_
        intro r u hu b' hb'
        rw [hu.1] at hb'
        cases hb'
      | cons piece rest =>
        cases piece with
        | text c =>
          refine hgo (printFmtRound_at hinput htext rfl fun hup => nomatch hup) ?_
          rw [FmtPos.after_next_text]
          exact ⟨pre ++ [.text c], rest, by rw [hpieces]; simp, Or.inl rfl⟩
        | conversion padding letter =>
          refine hgo (printFmtRound_at hinput htext rfl fun hup => nomatch hup) ?_
          rw [FmtPos.after_next_percent]
          exact ⟨pre, _, hpieces, Or.inr ⟨⟨padding, letter, rest, rfl⟩, rfl⟩⟩
    · have hlast := hplain (.conversion padding letter) (by rw [hpieces]; simp)
      rw [piecesText_cons, (FmtPiece.chars_conversion hlast).1] at htext
      have htext' : piecesText pieces =
          (piecesText pre ++ [ch '%']) ++ letter.char :: piecesText rest := by
        rw [htext]
        simp
      refine hgo (printFmtRound_at hinput htext' (by simp [FmtPos.inside]) fun _ k hk => ?_) ?_
      · rw [letter.directive_kind] at hk
        cases hk
        exact hmatch.value hpieces
      · rw [FmtPos.inside_next hlast]
        exact ⟨pre ++ [.conversion padding letter], rest, by rw [hpieces]; simp, Or.inl rfl⟩

/-- A longer beginning of the pieces spells the whole next piece. -/
theorem piecesText_length_le {pre post pre' post' : List FmtPiece} {piece : FmtPiece}
    (h : pre ++ post = pre' ++ piece :: post') (hlt : pre'.length < pre.length) :
    (piecesText pre').length + piece.chars.length ≤ (piecesText pre).length := by
  have hsplit : pre' ++ piece :: post' = (pre' ++ [piece]) ++ post' := by simp
  have hlong : pre' ++ [piece] <+: pre ++ post := ⟨post', by rw [h, hsplit]⟩
  have hprefix : pre' ++ [piece] <+: pre := by
    apply List.prefix_of_prefix_length_le hlong (List.prefix_append _ _)
    rw [List.length_append, List.length_singleton]
    exact hlt
  obtain ⟨more, hmore⟩ := hprefix
  rw [← hmore, piecesText_append, piecesText_append, List.length_append, List.length_append]
  show _ ≤ (piecesText pre').length + (piece.chars ++ []).length + _
  rw [List.append_nil]
  omega

/-- At a letter of a format without padding, the loop is where it should be. -/
theorem AtPieces.letter {pre post : List FmtPiece} {padding : Option (Digit × Digit)}
    {letter : FmtLetter} {st : FmtState} (h : AtPieces pieces st)
    (hplain : ∀ piece ∈ pieces, ¬ piece.Padded) (hshort : (piecesText pieces).length < 2 ^ 64)
    (hpieces : pieces = pre ++ .conversion padding letter :: post)
    (hindex : st.index = BitVec.ofNat 64
      ((piecesText pre).length + 1 + (FmtPiece.paddingChars padding).length)) :
    st.upState = true ∧ st.arg = conversions pre := by
  obtain ⟨hchars, -, hnone⟩ := FmtPiece.chars_conversion
    (hplain (.conversion padding letter) (by rw [hpieces]; simp))
  have hlen : (FmtPiece.conversion padding letter).chars.length = 2 := by rw [hchars]; rfl
  have hletter := congrArg (fun l => (piecesText l).length) hpieces
  simp only [piecesText_append, piecesText_cons, List.length_append, hlen] at hletter
  rw [hnone, List.length_nil, Nat.add_zero] at hindex
  obtain ⟨pre', post', hpieces', hst⟩ := h
  have hplace := congrArg (fun l => (piecesText l).length) hpieces'
  simp only [piecesText_append, List.length_append] at hplace
  have hsplit : pre' ++ post' = pre ++ .conversion padding letter :: post := by
    rw [← hpieces', hpieces]
  rcases hst with rfl | ⟨⟨padding', letter', rest, rfl⟩, rfl⟩
  · -- no two pieces meet at a letter
    have hnat := congrArg BitVec.toNat hindex
    rw [FmtPos.state, FmtPos.after, BitVec.toNat_ofNat, BitVec.toNat_ofNat] at hnat
    dsimp only at hnat
    rcases Nat.lt_or_ge pre.length pre'.length with hlt | hge
    · have hle := piecesText_length_le hsplit hlt
      omega
    · obtain ⟨more, rfl⟩ : pre' <+: pre := by
        apply List.prefix_of_prefix_length_le (List.prefix_append pre' post') _ hge
        exact ⟨_, hsplit.symm⟩
      rw [piecesText_append, List.length_append] at hnat hletter
      omega
  · have hnat := congrArg BitVec.toNat hindex
    rw [FmtPos.state, FmtPos.inside, BitVec.toNat_ofNat, BitVec.toNat_ofNat] at hnat
    dsimp only at hnat
    have hpos : 0 < (FmtPiece.conversion padding' letter').chars.length := Nat.succ_pos _
    rw [piecesText_cons, List.length_append] at hplace
    rcases Nat.lt_trichotomy pre.length pre'.length with hlt | heq | hgt
    · have hle := piecesText_length_le hsplit hlt
      omega
    · obtain rfl : pre' = pre := (List.append_inj hsplit heq.symm).1
      exact ⟨rfl, rfl⟩
    · have hle := piecesText_length_le hsplit.symm hgt
      omega

/-- The letter behind the first padding is read as text. -/
theorem not_printsInStep (h : FmtInput s.mem literal buf fmt args (piecesText pieces) values)
    (hmatch : PiecesMatch pieces values) {piece : FmtPiece} (hmem : piece ∈ pieces)
    (hpadded : piece.Padded) : ¬ PrintsInStep literal buf fmt args pieces values s := by
  intro hstep
  have hfind : (pieces.find? fun piece => decide piece.Padded).isSome = true := by
    rw [List.find?_isSome]
    exact ⟨piece, hmem, decide_eq_true hpadded⟩
  obtain ⟨piece, hfound⟩ := Option.isSome_iff_exists.mp hfind
  obtain ⟨hfirst, pre, post, hpieces, hbefore⟩ := List.find?_eq_some_iff_append.mp hfound
  have hplain : ∀ piece ∈ pre, ¬ piece.Padded := by
    intro piece hp
    simpa using hbefore piece hp
  have hafter := reached_after h hmatch pre _ hpieces hplain
  have htext : piecesText pieces = piecesText pre ++ (piece.chars ++ piecesText post) := by
    rw [hpieces, piecesText_append, piecesText_cons]
  match piece, of_decide_eq_true hfirst with
  | .conversion (some (pad, count)) letter, _ =>
    have hinside := hafter.step h htext rfl fun hup => nomatch hup
    rw [FmtPos.after_next_percent] at hinside
    have htext' : piecesText pieces = (piecesText pre ++ [ch '%']) ++
        pad.val :: (count.val :: letter.char :: piecesText post) := by
      rw [htext]
      simp [FmtPiece.chars, FmtPiece.paddingChars]
    obtain ⟨t, hround, -⟩ := hinside.step h htext' (by simp [FmtPos.inside]) fun _ k hk => by
      rw [pad.property.directive_kind] at hk
      cases hk
    rw [FmtPos.inside, FmtPos.next, if_pos rfl, if_pos pad.property] at hround
    have hletter := (hstep.letters pre _ letter post hpieces _ t hround rfl).1
    cases hletter

/-- The arguments stay in step with the conversions exactly when no conversion has
padding. -/
theorem kiPrintFmt_printsInStep_iff
    (h : FmtInput s.mem literal buf fmt args (piecesText pieces) values)
    (hmatch : PiecesMatch pieces values) :
    PrintsInStep literal buf fmt args pieces values s ↔ ∀ piece ∈ pieces, ¬ piece.Padded := by
  constructor
  · intro hstep piece hmem hpadded
    exact not_printsInStep h hmatch hmem hpadded hstep
  · intro hplain
    have htokens := fmtTokens_pieces hplain
    have hcut : ∀ c, FmtToken.cut c ∉ fmtTokens false (piecesText pieces) := by
      intro c hc
      rw [htokens] at hc
      obtain ⟨piece, -, hp⟩ := List.mem_map.mp hc
      cases piece <;> cases hp
    have hkinds : FmtSuffices (fmtTokens false (piecesText pieces)) values := by
      rw [htokens, FmtSuffices, List.filterMap_map,
        show FmtToken.kind ∘ FmtPiece.token = FmtPiece.kind from funext FmtPiece.token_kind]
      exact hmatch
    have hrun := kiPrintFmt_tokens h hcut hkinds
    rw [htokens, tokenCalls_pieces hplain] at hrun
    refine ⟨hrun.mono fun status t ht => ⟨ht.1, ht.2.1⟩, ?_⟩
    intro pre padding letter post hpieces st t hround hindex
    exact (rounds_pieces h hmatch hplain hround).letter hplain h.format.short hpieces hindex

end Pieces

theorem plain_format_printsInStep :
    PrintsInStep fmtLiteral 0x4000 0x2000 (fun _ => 7)
      [.conversion none .u, .text ⟨ch '.', by decide⟩] [.uint64 7] (formatMachine (chars "%u.")) := by
  have hinput : FmtInput (formatMachine (chars "%u.")).mem fmtLiteral 0x4000 0x2000 (fun _ => 7)
      (piecesText [.conversion none .u, .text ⟨ch '.', by decide⟩]) [.uint64 7] :=
    formatMachine_input (by decide) (by decide) fun k v hv => by
      cases k with
      | zero =>
        cases hv
        exact rfl
      | succ k => cases hv
  refine (kiPrintFmt_printsInStep_iff hinput (by rw [PiecesMatch]; decide)).mpr ?_
  decide

/-- The version in the kernel's greeting. -/
def versionPieces : List FmtPiece :=
  let part := FmtPiece.conversion (some (⟨ch '0', by decide⟩, ⟨ch '1', by decide⟩)) .u
  let dot := FmtPiece.text ⟨ch '.', by decide⟩
  [part, dot, part, dot, part]

/-- It prints the letters, the padding past `BackingFunctions`, and none of its arguments. -/
theorem version_format_prints_letters :
    piecesText versionPieces = chars "%01u.%01u.%01u" ∧
    FmtInput (formatMachine (piecesText versionPieces)).mem fmtLiteral 0x4000 0x2000 (fun _ => 7)
      (piecesText versionPieces) [.uint64 7, .uint64 7, .uint64 7] ∧
    PiecesMatch versionPieces [.uint64 7, .uint64 7, .uint64 7] ∧
    (Returns (kiPrintFmt fmtLiteral 0x4000 0x2000 fun _ => 7)
      (formatMachine (piecesText versionPieces)) fun _ t => t.statics =
        [.vgaPutChar (ch '0'), .putChar (ch 'u'), .putChar (ch '.'), .vgaPutChar (ch '0'),
          .putChar (ch 'u'), .putChar (ch '.'), .vgaPutChar (ch '0'), .putChar (ch 'u')]) ∧
    ¬ PrintsInStep fmtLiteral 0x4000 0x2000 (fun _ => 7) versionPieces
      [.uint64 7, .uint64 7, .uint64 7] (formatMachine (piecesText versionPieces)) := by
  have hinput : FmtInput (formatMachine (piecesText versionPieces)).mem fmtLiteral 0x4000 0x2000
      (fun _ => 7) (piecesText versionPieces) [.uint64 7, .uint64 7, .uint64 7] :=
    formatMachine_input (by decide) (by decide) fun k v hv => by
      match k with
      | 0 | 1 | 2 =>
        cases hv
        exact rfl
      | k + 3 => cases hv
  have hmatch : PiecesMatch versionPieces [.uint64 7, .uint64 7, .uint64 7] := by
    rw [PiecesMatch]
    decide
  have htokens : fmtTokens false (piecesText versionPieces) =
      [.pad (ch '0') (ch '1'), .item (.literal (ch 'u')), .item (.literal (ch '.')),
        .pad (ch '0') (ch '1'), .item (.literal (ch 'u')), .item (.literal (ch '.')),
        .pad (ch '0') (ch '1'), .item (.literal (ch 'u'))] := by
    decide
  refine ⟨by decide, hinput, hmatch, ?_, ?_⟩
  · apply (kiPrintFmt_tokens hinput ?_ ?_).mono
    · intro _ t ht
      rw [ht.2.1, htokens]
      decide
    · rw [htokens]
      intro c hc
      simp only [List.mem_cons, reduceCtorEq, or_self, List.not_mem_nil] at hc
    · rw [htokens, FmtSuffices]
      decide
  · exact not_printsInStep hinput hmatch (List.mem_cons_self ..) rfl

end FeralKernel
