import FeralKernel.Lib.BinFuncs

/-!
# Formatted printing

`KiPrintFmt` of `kern/lib/kernel_printfuncs.c` with the functions it prints through, and
how its loop reads a format string.  The code is over the calls that leave it, since
`KiUpdateFirmwareFunctions` installs what they reach.  With the static variable a list, the
calls can be recorded in it.
-/

namespace FeralKernel

open Verif.Program Verif.Bytes

/-! ## The code -/

/-- The calls that leave the print functions.  `VgaPutChar` is called past
`BackingFunctions`. -/
inductive ConsoleCall where
  | putChar (c : BitVec 8)
  | println (string : Ptr) (length : BitVec 64)
  | vgaPutChar (c : BitVec 8)
deriving DecidableEq

/-- The local variables of `KiPrintFmt`.  `arg` counts the arguments taken. -/
structure FmtState where
  index : BitVec 64
  upState : Bool
  arg : Nat
deriving DecidableEq

section Code

variable {σ : Type} (call : ConsoleCall → Kern σ Unit)

def kiPutCharWith (c : BitVec 8) : Kern σ FeralStatus := do
  call (.putChar c)
  pure .success

def kiPrintLineWith (string : Ptr) : Kern σ FeralStatus := do
  let (status, length) ← kiGetStringLength string
  if status ≠ .success then pure status
  else
    call (.println string (length.getD 0))
    pure .success

def kiPrintWith (string : Ptr) : Kern σ FeralStatus := do
  let (status, length) ← kiGetStringLength string
  if status ≠ .success then pure status
  else
    forRange (fun i _ => do
      let letter ← load8 (string + BitVec.ofNat 64 i)
      let _ ← kiPutCharWith call letter
      pure ()) (length.getD 0).toNat 0 ()
    pure .success

/-- What the numeric directives share: a cleared buffer of `n` bytes, the
number in it, and the buffer printed. -/
def printNumberWith (buf : Ptr) (n : Nat) (itoa : Ptr → Kern σ FeralStatus) : Kern σ Unit := do
  forRange (fun i _ => store8 (buf + BitVec.ofNat 64 i) 0) n 0 ()
  let _ ← itoa buf
  let _ ← kiPrintWith call buf
  pure ()

/-- The branch for a character behind `%`.  `args` are the slots that `va_arg` reads,
and `buf` is where the local buffers are. -/
def formatDirectiveWith (literal : String → Ptr) (buf fmt : Ptr) (args : Nat → BitVec 64)
    (cur : BitVec 8) (st : FmtState) : Kern σ FmtState := do
  if cur = ch 's' then
    let _ ← kiPrintWith call (args st.arg)
    pure { st with arg := st.arg + 1 }
  else if cur = ch 'i' then
    printNumberWith call buf 21 (kiItoaSigned (((args st.arg).setWidth 32).signExtend 64))
    pure { st with arg := st.arg + 1 }
  else if cur = ch 'l' then
    printNumberWith call buf 21 (kiItoaSigned (args st.arg))
    pure { st with arg := st.arg + 1 }
  else if cur = ch 'u' then
    printNumberWith call buf 22 (kiItoa (args st.arg))
    pure { st with arg := st.arg + 1 }
  else if cur = ch 'x' then
    printNumberWith call buf 17 (kiItoaBase (args st.arg) 16)
    pure { st with arg := st.arg + 1 }
  else if cur = ch '%' then
    let _ ← kiPrintWith call (literal "%")
    pure st
  else if (ch '0').toInt ≤ cur.toInt ∧ cur.toInt ≤ (ch '9').toInt then
    let next ← load8 (fmt + (st.index + 1))
    if next ≠ 0 then
      let repeatedCount := next - ch '0'
      forRange (fun _ _ => call (.vgaPutChar cur)) repeatedCount.toNat 0 ()
      pure { st with index := st.index + 1 }
    else pure { st with index := st.index + 1 }
  else pure st

/-- The body of the loop.  `CHAR` is signed. -/
def printFmtStepWith (literal : String → Ptr) (buf fmt : Ptr) (args : Nat → BitVec 64)
    (cur : BitVec 8) (st : FmtState) : Kern σ FmtState := do
  if cur = ch '%' ∧ st.upState = false then pure { st with upState := true }
  else if st.upState = true then
    let st ← formatDirectiveWith call literal buf fmt args cur st
    pure { st with upState := false }
  else if (ch ' ').toInt ≤ cur.toInt then
    let _ ← kiPutCharWith call cur
    pure st
  else if cur = ch '\n' then
    let _ ← kiPrintLineWith call (literal "")
    pure st
  else if cur = ch '\t' then
    forRange (fun _ _ => do
      let _ ← kiPrintWith call (literal " ")
      pure ()) 8 0 ()
    pure st
  else pure st

/-- The loop of `KiPrintFmt`, one round of it. -/
def printFmtRoundWith (literal : String → Ptr) (buf fmt : Ptr) (args : Nat → BitVec 64)
    (st : FmtState) : Kern σ (Unit ⊕ FmtState) := do
  let cur ← load8 (fmt + st.index)
  if cur ≠ 0 then
    let st ← printFmtStepWith call literal buf fmt args cur st
    pure (.inr { st with index := st.index + 1 })
  else pure (.inl ())

def kiPrintFmtWith (literal : String → Ptr) (buf fmt : Ptr) (args : Nat → BitVec 64) :
    Kern σ FeralStatus := do
  iterate .hang (printFmtRoundWith call literal buf fmt args) loopBound
    { index := 0, upState := false, arg := 0 }
  pure .success

end Code

/-- Code that prints, with the calls recorded. -/
abbrev Print (α : Type) : Type := Kern (List ConsoleCall) α

def makeCall (c : ConsoleCall) : Print Unit := do
  let calls ← getStatics
  setStatics (calls ++ [c])

def printFmtRound (literal : String → Ptr) (buf fmt : Ptr) (args : Nat → BitVec 64) :
    FmtState → Print (Unit ⊕ FmtState) :=
  printFmtRoundWith makeCall literal buf fmt args

def kiPrintFmt (literal : String → Ptr) (buf fmt : Ptr) (args : Nat → BitVec 64) :
    Print FeralStatus :=
  kiPrintFmtWith makeCall literal buf fmt args

@[simp] theorem returns_makeCall {c : ConsoleCall} {s : Machine (List ConsoleCall)}
    {Q : Unit → Machine (List ConsoleCall) → Prop} :
    Returns (makeCall c) s Q ↔ Q () { s with statics := s.statics ++ [c] } := by
  simp only [makeCall, returns_bind, returns_getStatics, returns_setStatics]

/-! ## Format strings -/

/-- A character that stands for itself, or one behind a `%`. -/
inductive FmtItem where
  | literal (c : BitVec 8)
  | directive (c : BitVec 8)
deriving DecidableEq

/-- The items of a format string.  A `%` at its end is none. -/
def fmtItems : List (BitVec 8) → List FmtItem
  | [] => []
  | [c] => if c = ch '%' then [] else [.literal c]
  | c :: d :: rest =>
    if c = ch '%' then .directive d :: fmtItems rest else .literal c :: fmtItems (d :: rest)

inductive FmtKind where
  | string
  | int32
  | int64
  | uint64
deriving DecidableEq

inductive FmtValue where
  | string (text : List (BitVec 8))
  | int32 (v : BitVec 32)
  | int64 (v : BitVec 64)
  | uint64 (v : BitVec 64)
deriving DecidableEq

def FmtValue.kind : FmtValue → FmtKind
  | .string _ => .string
  | .int32 _ => .int32
  | .int64 _ => .int64
  | .uint64 _ => .uint64

/-- The kind of value that an item takes. -/
def FmtItem.kind : FmtItem → Option FmtKind
  | .literal _ => none
  | .directive c =>
    if c = ch 's' then some .string
    else if c = ch 'i' then some .int32
    else if c = ch 'l' then some .int64
    else if c = ch 'u' ∨ c = ch 'x' then some .uint64
    else none

/-- What prints a value.  Strings are printed as they are and numbers by their
canonical numeral. -/
def FmtValue.text (c : BitVec 8) : FmtValue → List (BitVec 8)
  | .string text => text
  | .int32 v => signedNumeral v.toInt
  | .int64 v => signedNumeral v.toInt
  | .uint64 v => if c = ch 'x' then numeral 16 v.toNat else numeral 10 v.toNat

/-- The calls for one item, which gets the next value if it takes one.  `empty` is
the address of the literal `""`. -/
def FmtItem.calls (empty : Ptr) : FmtItem → Option FmtValue → List ConsoleCall
  | .literal c, _ =>
    if (ch ' ').toInt ≤ c.toInt then [.putChar c]
    else if c = ch '\n' then [.println empty 0]
    else if c = ch '\t' then List.replicate 8 (.putChar (ch ' '))
    else []
  | .directive c, value =>
    match (FmtItem.directive c).kind, value with
    | some _, some v => (v.text c).map .putChar
    | some _, none => []
    | none, _ => if c = ch '%' then [.putChar (ch '%')] else []

/-- The calls for a list of items, with the values taken in order. -/
def fmtCalls (empty : Ptr) : List FmtItem → List FmtValue → List ConsoleCall
  | [], _ => []
  | item :: rest, values =>
    item.calls empty values.head? ++
      fmtCalls empty rest (if item.kind.isSome then values.tail else values)

namespace FmtValue

variable {value : FmtValue}

theorem eq_string (h : value.kind = .string) : ∃ text, value = .string text := by
  cases value with
  | string text => exact ⟨text, rfl⟩
  | int32 v => cases h
  | int64 v => cases h
  | uint64 v => cases h

theorem eq_int32 (h : value.kind = .int32) : ∃ v, value = .int32 v := by
  cases value with
  | string text => cases h
  | int32 v => exact ⟨v, rfl⟩
  | int64 v => cases h
  | uint64 v => cases h

theorem eq_int64 (h : value.kind = .int64) : ∃ v, value = .int64 v := by
  cases value with
  | string text => cases h
  | int32 v => cases h
  | int64 v => exact ⟨v, rfl⟩
  | uint64 v => cases h

theorem eq_uint64 (h : value.kind = .uint64) : ∃ v, value = .uint64 v := by
  cases value with
  | string text => cases h
  | int32 v => cases h
  | int64 v => cases h
  | uint64 v => exact ⟨v, rfl⟩

end FmtValue
/-! ## Digits -/

/-- The characters that the padding branch takes. -/
def IsDigit (c : BitVec 8) : Prop := (ch '0').toInt ≤ c.toInt ∧ c.toInt ≤ (ch '9').toInt

instance (c : BitVec 8) : Decidable (IsDigit c) := inferInstanceAs (Decidable (_ ∧ _))

theorem IsDigit.ne {c d : BitVec 8} (hc : IsDigit c) (hd : ¬ IsDigit d) : c ≠ d := by
  intro he
  rw [he] at hc
  exact hd hc

theorem IsDigit.directive_kind {c : BitVec 8} (h : IsDigit c) :
    (FmtItem.directive c).kind = none := by
  rw [FmtItem.kind, if_neg (h.ne (by decide)), if_neg (h.ne (by decide)),
    if_neg (h.ne (by decide)), if_neg]
  exact not_or.mpr ⟨h.ne (by decide), h.ne (by decide)⟩
/-! ## The loop -/

/-- What the loop makes of a format.  A digit behind `%` takes the character behind it as
its count; `cut` is such a digit at the end of the format. -/
inductive FmtToken where
  | item (item : FmtItem)
  | pad (digit count : BitVec 8)
  | cut (digit : BitVec 8)
deriving DecidableEq

def FmtToken.kind : FmtToken → Option FmtKind
  | .item i => i.kind
  | .pad _ _ => none
  | .cut _ => none

def FmtToken.calls (empty : Ptr) (value : Option FmtValue) : FmtToken → List ConsoleCall
  | .item i => i.calls empty value
  | .pad digit count => List.replicate (count - ch '0').toNat (.vgaPutChar digit)
  | .cut _ => []

/-- The tokens of a format, read in one of the two states of the loop. -/
def fmtTokens : Bool → List (BitVec 8) → List FmtToken
  | _, [] => []
  | false, c :: rest =>
    if c = ch '%' then fmtTokens true rest else .item (.literal c) :: fmtTokens false rest
  | true, [c] => if IsDigit c then [.cut c] else [.item (.directive c)]
  | true, c :: d :: rest =>
    if IsDigit c then .pad c d :: fmtTokens false rest
    else .item (.directive c) :: fmtTokens false (d :: rest)

theorem fmtTokens_nil (up : Bool) : fmtTokens up [] = [] := by
  cases up <;> rfl

theorem fmtTokens_directive {c : BitVec 8} (hc : ¬ IsDigit c) (rest : List (BitVec 8)) :
    fmtTokens true (c :: rest) = .item (.directive c) :: fmtTokens false rest := by
  cases rest with
  | nil =>
    show (if IsDigit c then _ else _) = _
    rw [if_neg hc]
    rfl
  | cons d rest =>
    show (if IsDigit c then _ else _) = _
    rw [if_neg hc]

/-- The calls for a list of tokens, with the values taken in order. -/
def tokenCalls (empty : Ptr) : List FmtToken → List FmtValue → List ConsoleCall
  | [], _ => []
  | token :: rest, values =>
    token.calls empty values.head? ++
      tokenCalls empty rest (if token.kind.isSome then values.tail else values)

/-- The values are enough, and of the kinds that the tokens take. -/
def FmtSuffices (tokens : List FmtToken) (values : List FmtValue) : Prop :=
  tokens.filterMap FmtToken.kind <+: values.map FmtValue.kind

section Tokens

variable {values : List FmtValue}

theorem FmtSuffices.head {token : FmtToken} {tokens : List FmtToken} {arg : Nat}
    (h : FmtSuffices (token :: tokens) (values.drop arg)) {k : FmtKind}
    (hk : token.kind = some k) : ∃ v, values[arg]? = some v ∧ v.kind = k := by
  rw [FmtSuffices, List.filterMap_cons, hk] at h
  rw [← List.head?_drop]
  cases hvs : values.drop arg with
  | nil =>
    rw [hvs] at h
    exact absurd (List.prefix_nil.mp h) (List.cons_ne_nil _ _)
  | cons v vs =>
    rw [hvs, List.map_cons] at h
    exact ⟨v, rfl, (List.cons_prefix_cons.mp h).1.symm⟩

theorem FmtSuffices.tail {token : FmtToken} {tokens : List FmtToken} {arg : Nat}
    (h : FmtSuffices (token :: tokens) (values.drop arg)) :
    FmtSuffices tokens (values.drop (if token.kind.isSome then arg + 1 else arg)) := by
  rw [FmtSuffices, List.filterMap_cons] at h
  cases hk : token.kind with
  | none =>
    rw [hk] at h
    exact h
  | some k =>
    rw [hk] at h
    show tokens.filterMap FmtToken.kind <+: (values.drop (arg + 1)).map FmtValue.kind
    rw [← List.tail_drop, List.map_tail]
    obtain ⟨more, hmore⟩ := h
    exact ⟨more, by rw [← hmore]; rfl⟩

theorem tokenCalls_cons (empty : Ptr) (token : FmtToken) (tokens : List FmtToken) (arg : Nat) :
    tokenCalls empty (token :: tokens) (values.drop arg) =
      token.calls empty values[arg]? ++
        tokenCalls empty tokens (values.drop (if token.kind.isSome then arg + 1 else arg)) := by
  rw [tokenCalls, List.head?_drop]
  split
  · rw [List.tail_drop]
  · rfl

end Tokens

/-- Where the loop is. -/
structure FmtPos where
  index : Nat
  upState : Bool
  arg : Nat
deriving DecidableEq

namespace FmtPos

def start : FmtPos := { index := 0, upState := false, arg := 0 }

/-- The variables of the loop there. -/
def state (p : FmtPos) : FmtState :=
  { index := BitVec.ofNat 64 p.index, upState := p.upState, arg := p.arg }

/-- Where one round takes the loop from the character `cur`. -/
def next (p : FmtPos) (cur : BitVec 8) : FmtPos :=
  if p.upState then
    if IsDigit cur then { index := p.index + 2, upState := false, arg := p.arg }
    else
      { index := p.index + 1
        upState := false
        arg := if (FmtItem.directive cur).kind.isSome then p.arg + 1 else p.arg }
  else { index := p.index + 1, upState := decide (cur = ch '%'), arg := p.arg }

/-- The token that the round ends, if it ends one.  `count` is the next character. -/
def token (p : FmtPos) (cur count : BitVec 8) : Option FmtToken :=
  if p.upState then
    if IsDigit cur then some (if count = 0 then .cut cur else .pad cur count)
    else some (.item (.directive cur))
  else if cur = ch '%' then none else some (.item (.literal cur))

/-- The tokens still to come. -/
def tokens (p : FmtPos) (text : List (BitVec 8)) : List FmtToken :=
  fmtTokens p.upState (text.drop p.index)

theorem lt_next (p : FmtPos) (cur : BitVec 8) : p.index < (p.next cur).index := by
  rw [next]
  split
  · split
    · show p.index < p.index + 2
      omega
    · exact Nat.lt_succ_self _
  · exact Nat.lt_succ_self _

theorem next_arg (p : FmtPos) (cur count : BitVec 8) :
    (p.next cur).arg =
      if ((p.token cur count).bind FmtToken.kind).isSome then p.arg + 1 else p.arg := by
  cases hup : p.upState with
  | false =>
    by_cases hp : cur = ch '%'
    · simp [next, token, hup, hp]
    · simp [next, token, hup, hp, FmtToken.kind, FmtItem.kind]
  | true =>
    by_cases hdigit : IsDigit cur
    · rw [next, token, if_pos hup, if_pos hup, if_pos hdigit, if_pos hdigit]
      split <;> rfl
    · simp [next, token, hup, hdigit, FmtToken.kind]

/-- A round ends a token or is inside one. -/
theorem tokens_next {p : FmtPos} {text : List (BitVec 8)} (hvisible : ∀ c ∈ text, c ≠ 0)
    (hi : p.index < text.length) :
    p.tokens text = (p.token text[p.index] (text.getD (p.index + 1) 0)).toList ++
      (p.next text[p.index]).tokens text := by
  have hdrop := List.drop_eq_getElem_cons hi
  generalize hc : text[p.index] = c at hdrop
  rw [tokens, hdrop]
  cases hup : p.upState with
  | false =>
    by_cases hp : c = ch '%'
    · rw [fmtTokens, if_pos hp]
      simp [token, next, tokens, hup, hp]
    · rw [fmtTokens, if_neg hp]
      simp [token, next, tokens, hup, hp]
  | true =>
    by_cases hdigit : IsDigit c
    · cases hrest : text.drop (p.index + 1) with
      | nil =>
        have hlen : text.length ≤ p.index + 1 := List.drop_eq_nil_iff.mp hrest
        have hend : text.drop (p.index + 2) = [] := List.drop_eq_nil_iff.mpr (by omega)
        have hzero : text.getD (p.index + 1) 0 = 0 := List.getD_eq_default _ _ hlen
        rw [token, if_pos hup, if_pos hdigit, if_pos hzero, next, if_pos hup, if_pos hdigit, tokens,
          hend]
        exact if_pos hdigit
      | cons d rest =>
        have hlt : p.index + 1 < text.length := by
          by_contra hge
          rw [List.drop_eq_nil_iff.mpr (by omega)] at hrest
          cases hrest
        rw [List.drop_eq_getElem_cons hlt] at hrest
        obtain ⟨rfl, rfl⟩ := List.cons.inj hrest
        have hget : text.getD (p.index + 1) 0 = text[p.index + 1] := List.getD_eq_getElem _ _ hlt
        have hne : text[p.index + 1] ≠ 0 := hvisible _ (List.getElem_mem hlt)
        rw [token, if_pos hup, if_pos hdigit, hget, if_neg hne, next, if_pos hup, if_pos hdigit,
          tokens]
        exact if_pos hdigit
    · rw [fmtTokens_directive hdigit]
      simp [token, next, tokens, hup, hdigit]

theorem eq_of_token_cut {p : FmtPos} {cur count c : BitVec 8}
    (h : p.token cur count = some (.cut c)) :
    p.upState = true ∧ IsDigit cur ∧ count = 0 := by
  rw [token] at h
  split at h
  case isTrue hup =>
    split at h
    case isTrue hdigit =>
      refine ⟨hup, hdigit, ?_⟩
      by_contra hzero
      rw [if_neg hzero] at h
      cases h
    case isFalse => cases h
  case isFalse =>
    split at h <;> cases h

/-- Without a cut the loop does not run past the end. -/
theorem next_index_le {p : FmtPos} {text : List (BitVec 8)} (hi : p.index < text.length)
    (hcut : ∀ c, FmtToken.cut c ∉ p.tokens text) :
    (p.next text[p.index]).index ≤ text.length := by
  rw [next]
  split
  case isTrue hup =>
    split
    case isTrue hdigit =>
      show p.index + 2 ≤ text.length
      by_contra hend
      have hlen : text.length = p.index + 1 := by omega
      apply hcut text[p.index]
      have hnil : text.drop (p.index + 1) = [] := List.drop_eq_nil_iff.mpr (by omega)
      rw [tokens, List.drop_eq_getElem_cons hi, hnil, hup, fmtTokens, if_pos hdigit]
      exact List.mem_singleton.mpr rfl
    case isFalse => exact hi
  case isFalse => exact hi

theorem not_cut_next {p : FmtPos} {text : List (BitVec 8)} (hvisible : ∀ c ∈ text, c ≠ 0)
    (hi : p.index < text.length) {c : BitVec 8} (hcut : FmtToken.cut c ∉ p.tokens text) :
    FmtToken.cut c ∉ (p.next text[p.index]).tokens text := by
  intro hc
  apply hcut
  rw [tokens_next hvisible hi]
  exact List.mem_append_right _ hc

end FmtPos

/-! ## Formats without padding -/

/-- The items and the values match in number and kind. -/
def FmtMatches (items : List FmtItem) (values : List FmtValue) : Prop :=
  items.filterMap FmtItem.kind = values.map FmtValue.kind

theorem fmtItems_literal {c : BitVec 8} (hc : c ≠ ch '%') (rest : List (BitVec 8)) :
    fmtItems (c :: rest) = .literal c :: fmtItems rest := by
  cases rest with
  | nil =>
    show (if c = ch '%' then [] else [FmtItem.literal c]) = _
    rw [if_neg hc]
    rfl
  | cons d rest => rw [fmtItems, if_neg hc]

/-- Without a digit behind a `%` the tokens are the items. -/
theorem fmtTokens_eq_items : ∀ text : List (BitVec 8),
    (∀ c, FmtItem.directive c ∈ fmtItems text → ¬ IsDigit c) →
    fmtTokens false text = (fmtItems text).map .item := by
  intro text
  induction text using fmtItems.induct with
  | case1 => intro _; rfl
  | case2 => intro _; rfl
  | case3 c hc =>
    intro _
    rw [fmtItems_literal hc, fmtTokens, if_neg hc, fmtTokens_nil]
    rfl
  | case4 d rest ih =>
    intro hdigit
    have hitems : fmtItems (ch '%' :: d :: rest) = .directive d :: fmtItems rest := by
      rw [fmtItems, if_pos rfl]
    rw [hitems] at hdigit ⊢
    have hd := hdigit d (List.mem_cons_self ..)
    rw [fmtTokens, if_pos rfl, fmtTokens_directive hd,
      ih fun e he => hdigit e (List.mem_cons_of_mem _ he)]
    rfl
  | case5 c d rest hc ih =>
    intro hdigit
    rw [fmtItems_literal hc] at hdigit ⊢
    rw [fmtTokens, if_neg hc, ih fun e he => hdigit e (List.mem_cons_of_mem _ he)]
    rfl

theorem tokenCalls_items (empty : Ptr) (items : List FmtItem) : ∀ values : List FmtValue,
    tokenCalls empty (items.map .item) values = fmtCalls empty items values := by
  induction items with
  | nil =>
    intro values
    rfl
  | cons item rest ih =>
    intro values
    rw [List.map_cons, tokenCalls, fmtCalls, ih]
    rfl

/-! ## Strings and the buffer -/

/-- A string that does not meet the buffer. -/
structure HeldString (m : Mem) (buf a : Ptr) (text : List (BitVec 8)) : Prop
    extends CString m a text where
  apart : ∀ k, k ≤ text.length →
    phys (a + BitVec.ofNat 64 k) < phys buf ∨ phys buf + 22 ≤ phys (a + BitVec.ofNat 64 k)

/-- Memory is as it was but for the buffer. -/
def SameOutside (buf : Ptr) (m m' : Mem) : Prop :=
  ∀ x, x < phys buf ∨ phys buf + 22 ≤ x → m' x = m x

theorem SameOutside.refl (buf : Ptr) (m : Mem) : SameOutside buf m m := fun _ _ => rfl

theorem SameOutside.trans {buf : Ptr} {m m' m'' : Mem} (h : SameOutside buf m m')
    (h' : SameOutside buf m' m'') : SameOutside buf m m'' :=
  fun x hx => (h' x hx).trans (h x hx)

theorem HeldString.of_sameOutside {m m' : Mem} {buf a : Ptr} {text : List (BitVec 8)}
    (h : HeldString m buf a text) (hm : SameOutside buf m m') : HeldString m' buf a text :=
  ⟨h.toCString.congr fun k hk => hm _ (h.apart k hk), h.apart⟩

/-- The slot of an argument holds the value. -/
def FmtValue.In (m : Mem) (buf : Ptr) : FmtValue → BitVec 64 → Prop
  | .string text, slot => HeldString m buf slot text
  | .int32 v, slot => slot.setWidth 32 = v
  | .int64 v, slot => slot = v
  | .uint64 v, slot => slot = v

theorem FmtValue.In.of_sameOutside {m m' : Mem} {buf : Ptr} {v : FmtValue} {slot : BitVec 64}
    (h : v.In m buf slot) (hm : SameOutside buf m m') : v.In m' buf slot := by
  cases v with
  | string text => exact HeldString.of_sameOutside h hm
  | int32 v => exact h
  | int64 v => exact h
  | uint64 v => exact h

/-- What `KiPrintFmt` is given: the buffer, the format, the literals of the code and
the arguments. -/
structure FmtInput (m : Mem) (literal : String → Ptr) (buf fmt : Ptr) (args : Nat → BitVec 64)
    (text : List (BitVec 8)) (values : List FmtValue) : Prop where
  nonnull : buf ≠ 0
  spans : Spans buf 22
  format : HeldString m buf fmt text
  literals : ∀ name ∈ ["", " ", "%"], HeldString m buf (literal name) (chars name)
  slots : ∀ k, ∀ v : FmtValue, values[k]? = some v → v.In m buf (args k)

theorem FmtInput.of_sameOutside {m m' : Mem} {literal : String → Ptr} {buf fmt : Ptr}
    {args : Nat → BitVec 64} {text : List (BitVec 8)} {values : List FmtValue}
    (h : FmtInput m literal buf fmt args text values) (hm : SameOutside buf m m') :
    FmtInput m' literal buf fmt args text values :=
  ⟨h.nonnull, h.spans, h.format.of_sameOutside hm,
    fun name hname => (h.literals name hname).of_sameOutside hm,
    fun k v hv => (h.slots k v hv).of_sameOutside hm⟩

end FeralKernel
