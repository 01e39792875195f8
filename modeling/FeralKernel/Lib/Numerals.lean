import FeralKernel.Lib.BinFuncs

/-!
# Reading numbers back

What a reader makes of the text that the itoa functions leave in a buffer: a digit is one
of `0-9`, `a-z` and `A-Z`, which stand for 0 to 61, and a text stands for its positional
value.  Texts are lists of character codes here, so that narrow and wide characters are
read the same way.
-/

namespace FeralKernel

open Verif Verif.Program Verif.Bytes Verif.Cells

variable {σ : Type}

/-! ## Texts -/

/-- The value of a digit, by its character code. -/
def digitValue (c : Nat) : Option Nat :=
  if 48 ≤ c ∧ c ≤ 57 then some (c - 48)
  else if 97 ≤ c ∧ c ≤ 122 then some (c - 97 + 10)
  else if 65 ≤ c ∧ c ≤ 90 then some (c - 65 + 36)
  else none

/-- The positional value of a text of digits. -/
def parseNumeral (radix : Nat) (text : List Nat) : Option Nat :=
  if text = [] then none
  else (text.mapM digitValue).map fun digits => Nat.ofDigits radix digits.reverse

/-- The same with a sign in front. -/
def parseSigned : List Nat → Option Int
  | [] => none
  | c :: rest =>
    if c = 45 then (parseNumeral 10 rest).map fun n => -(n : Int)
    else (parseNumeral 10 (c :: rest)).map fun n => (n : Int)

/-- The text is a numeral of the value, with no leading zero but that of zero itself. -/
structure IsNumeral (radix value : Nat) (text : List Nat) : Prop where
  nonempty : text ≠ []
  alphabet : ∀ c ∈ text, ∃ d, digitValue c = some d ∧ d < radix
  leading : text.head? = some 48 → value = 0
  positional : parseNumeral radix text = some value

/-- The canonical decimal of a signed value: the numeral of its magnitude, and a `-` in
front of it only for a negative one. -/
def IsSignedNumeral (v : Int) (text : List Nat) : Prop :=
  ∃ digits, text = (if v < 0 then 45 :: digits else digits) ∧ IsNumeral 10 v.natAbs digits

theorem mapM_digitValue {encode : Nat → Nat} : ∀ {digits : List Nat},
    (∀ d ∈ digits, digitValue (encode d) = some d) →
      (digits.map encode).mapM digitValue = some digits := by
  intro digits
  induction digits with
  | nil => intro _; rfl
  | cons d digits ih =>
    intro h
    rw [List.map_cons, List.mapM_cons, h d (List.mem_cons_self ..),
      ih fun d hd => h d (List.mem_cons_of_mem _ hd)]
    rfl

/-- The digits of a number, encoded one by one, are a numeral of it. -/
theorem isNumeral_numberCells {radix n : Nat} {encode : Nat → Nat} (h1 : 1 < radix)
    (h : ∀ d ∈ Nat.digits radix n, digitValue (encode d) = some d) :
    IsNumeral radix n (numberCells 48 encode radix n) := by
  rw [numberCells]
  split
  case isTrue hzero =>
    refine ⟨List.cons_ne_nil _ _, fun c hc => ?_, fun _ => hzero, ?_⟩
    · rw [List.mem_singleton.mp hc]
      exact ⟨0, rfl, by omega⟩
    · rw [hzero, parseNumeral, if_neg (List.cons_ne_nil _ _)]
      show some (Nat.ofDigits radix [0]) = some 0
      rw [Nat.ofDigits_singleton]
  case isFalse hzero =>
    have hne : Nat.digits radix n ≠ [] := Nat.digits_ne_nil_iff_ne_zero.mpr hzero
    have htext : ((Nat.digits radix n).map encode).reverse ≠ [] := by
      simpa using hne
    refine ⟨htext, fun c hc => ?_, fun hhead => ?_, ?_⟩
    · rw [List.mem_reverse, List.mem_map] at hc
      obtain ⟨d, hd, rfl⟩ := hc
      exact ⟨d, h d hd, Nat.digits_lt_base h1 hd⟩
    · -- the first character is that of the highest digit
      rw [List.head?_reverse, List.getLast?_map, List.getLast?_eq_getLast_of_ne_nil hne,
        Option.map_some, Option.some.injEq] at hhead
      have hvalue := h _ (List.getLast_mem hne)
      rw [hhead] at hvalue
      exact absurd (Option.some.inj hvalue).symm (Nat.getLast_digit_ne_zero radix hzero)
    · rw [parseNumeral, if_neg htext, ← List.map_reverse,
        mapM_digitValue fun d hd => h d (List.mem_reverse.mp hd), Option.map_some,
        List.reverse_reverse, Nat.ofDigits_digits]

/-! ## Texts in memory -/

/-- The cells hold the text and then a zero. -/
structure Terminated {w : Nat} (cell : Nat → BitVec w) (text : List (BitVec w)) : Prop where
  cells : ∀ k, k < text.length → text[k]? = some (cell k)
  closed : cell text.length = 0
  visible : ∀ c ∈ text, c ≠ 0

/-- The text is what stands before the first zero. -/
theorem Terminated.unique {w : Nat} {cell : Nat → BitVec w} {text text' : List (BitVec w)}
    (h : Terminated cell text) (h' : Terminated cell text') : text = text' := by
  have hle : ∀ {l l' : List (BitVec w)}, Terminated cell l → Terminated cell l' →
      l'.length ≤ l.length := by
    intro l l' hl hl'
    by_contra hlt
    have hcell := hl'.cells l.length (by omega)
    rw [hl.closed] at hcell
    exact hl'.visible 0 (List.mem_of_getElem? hcell) rfl
  have hlen : text.length = text'.length := Nat.le_antisymm (hle h' h) (hle h h')
  refine ext_cells hlen fun k hk => ?_
  rw [h.cells k (by omega), h'.cells k hk]

/-- The bytes from a pointer on. -/
def byteAt (buf : Ptr) (t : Machine σ) (k : Nat) : BitVec 8 :=
  t.mem (phys (buf + BitVec.ofNat 64 k))

theorem terminated_block {buf : Ptr} {m : Mem} {t : Machine σ} {text : List (BitVec 8)}
    (hspan : Spans buf (text.length + 1)) (hvisible : ∀ c ∈ text, c ≠ 0)
    (hm : t.mem = block m (phys buf) (text ++ [0])) : Terminated (byteAt buf t) text := by
  have hlen : (text ++ [(0 : BitVec 8)]).length = text.length + 1 := by simp
  refine ⟨fun k hk => ?_, ?_, hvisible⟩
  · rw [byteAt, hm, phys_add hspan (by omega), block_inside _ _ (by omega),
      List.getD_append _ _ _ _ hk, List.getD_eq_getElem _ _ hk, List.getElem?_eq_getElem hk]
  · rw [byteAt, hm, phys_add hspan (by omega), block_inside _ _ (by omega)]
    simp

/-! ## Signed decimals -/

theorem digitValue_digitChar : ∀ d : Fin 62, digitValue (digitChar d.val).toNat = some d.val := by
  decide

theorem isNumeral_numeral {radix : Nat} (h1 : 1 < radix) (h2 : radix ≤ 62) (n : Nat) :
    IsNumeral radix n ((numeral radix n).map BitVec.toNat) := by
  have hcells : (numeral radix n).map BitVec.toNat =
      numberCells 48 (fun d => (digitChar d).toNat) radix n :=
    map_numberCells BitVec.toNat (ch '0') digitChar radix n
  rw [hcells]
  apply isNumeral_numberCells h1
  intro d hd
  exact digitValue_digitChar ⟨d, Nat.lt_of_lt_of_le (Nat.digits_lt_base h1 hd) h2⟩

theorem isSignedNumeral_signedNumeral (v : Int) :
    IsSignedNumeral v ((signedNumeral v).map BitVec.toNat) := by
  refine ⟨_, ?_, isNumeral_numeral (by decide) (by decide) v.natAbs⟩
  rw [signedNumeral]
  split <;> rfl

/-- A canonical decimal is read back as its value. -/
theorem IsSignedNumeral.parse {v : Int} {text : List Nat} (h : IsSignedNumeral v text) :
    parseSigned text = some v := by
  obtain ⟨digits, rfl, hdigits⟩ := h
  by_cases hneg : v < 0
  · rw [if_pos hneg, parseSigned, if_pos rfl, hdigits.positional]
    show some (-(v.natAbs : Int)) = some v
    congr 1
    omega
  · rw [if_neg hneg]
    cases digits with
    | nil => exact absurd rfl hdigits.nonempty
    | cons c rest =>
      have hc : c ≠ 45 := by
        intro he
        obtain ⟨d, hd, -⟩ := hdigits.alphabet c (List.mem_cons_self ..)
        rw [he] at hd
        cases hd
      rw [parseSigned, if_neg hc, hdigits.positional]
      show some ((v.natAbs : Int)) = some v
      congr 1
      omega

/-- `KiItoaSigned` leaves the canonical decimal of every value in its buffer. -/
theorem kiItoaSigned_canonical {val : BitVec 64} {buf : Ptr} {s : Machine σ}
    (hspan : Spans buf ((signedNumeral val.toInt).length + 1)) :
    Returns (kiItoaSigned val buf) s fun status t => status = .success ∧
      ∃ text, Terminated (byteAt buf t) text ∧
        IsSignedNumeral val.toInt (text.map BitVec.toNat) ∧
        parseSigned (text.map BitVec.toNat) = some val.toInt := by
  have hnumeral := isSignedNumeral_signedNumeral val.toInt
  rw [kiItoaSigned]
  apply (internalSignedItoa_spec hspan).bind
  intro _ t ht
  rw [returns_pure]
  exact ⟨rfl, signedNumeral val.toInt,
    terminated_block hspan (signedNumeral_visible _) ht.1, hnumeral, hnumeral.parse⟩

/-- The lowest value, which has no positive counterpart. -/
theorem kiItoaSigned_canonical_lowest :
    Returns (kiItoaSigned 0x8000000000000000 0x1000) (Machine.mk (fun _ => 0) [] ())
      fun status t => status = .success ∧ ∃ text, Terminated (byteAt 0x1000 t) text ∧
        IsSignedNumeral (-9223372036854775808) (text.map BitVec.toNat) ∧
        parseSigned (text.map BitVec.toNat) = some (-9223372036854775808) := by
  have hspan : Spans 0x1000 ((signedNumeral (0x8000000000000000 : BitVec 64).toInt).length + 1) := by
    have hlen := length_signedNumeral_le 0x8000000000000000
    have hroom : Spans 0x1000 21 := by
      unfold Spans
      decide
    exact hroom.mono (by omega)
  exact kiItoaSigned_canonical hspan

/-! ## Every radix -/

/-- The code leaves a terminated text in the cells that is a numeral of the value. -/
def WritesNumeral {w : Nat} (x : Kern σ Unit) (s : Machine σ) (cell : Machine σ → Nat → BitVec w)
    (radix val : Nat) : Prop :=
  Returns x s fun _ t => ∃ text, Terminated (cell t) text ∧
    IsNumeral radix val (text.map BitVec.toNat)

section Writes

variable {w : Nat} {x : Kern σ Unit} {s : Machine σ} {cell : Machine σ → Nat → BitVec w}
variable {zero : BitVec w} {encode : Nat → BitVec w} {radix n : Nat}

/-- With an encoding that is right but for 35, the text is a numeral if no digit is 35. -/
theorem writesNumeral_iff (h1 : 1 < radix) (h2 : radix ≤ 62) (hzero : zero.toNat = 48)
    (hencode : ∀ d : Fin 62,
      digitValue (encode d.val).toNat = if d.val = 35 then none else some d.val)
    (h : Returns x s fun _ t => Terminated (cell t) (numberCells zero encode radix n)) :
    WritesNumeral x s cell radix n ↔ 35 ∉ Nat.digits radix n := by
  have hdigit : ∀ d ∈ Nat.digits radix n,
      digitValue (encode d).toNat = if d = 35 then none else some d :=
    fun d hd => hencode ⟨d, Nat.lt_of_lt_of_le (Nat.digits_lt_base h1 hd) h2⟩
  have hcells := map_numberCells BitVec.toNat zero encode radix n
  rw [hzero] at hcells
  constructor
  · intro hwrites h35
    obtain ⟨_, t, -, hterm, text, htext, hnumeral⟩ := h.and hwrites
    rw [htext.unique hterm, hcells] at hnumeral
    have hmem : (encode 35).toNat ∈ numberCells 48 (fun d => (encode d).toNat) radix n := by
      have hne : n ≠ 0 := by
        rintro rfl
        rw [Nat.digits_zero] at h35
        cases h35
      rw [numberCells, if_neg hne, List.mem_reverse]
      exact List.mem_map_of_mem h35
    obtain ⟨d, hd, -⟩ := hnumeral.alphabet _ hmem
    rw [hdigit 35 h35] at hd
    cases hd
  · intro h35
    refine h.mono fun _ t ht => ⟨_, ht, ?_⟩
    rw [hcells]
    apply isNumeral_numberCells h1
    intro d hd
    have hne : d ≠ 35 := by
      rintro rfl
      exact h35 hd
    rw [hdigit d hd, if_neg hne]

end Writes

theorem encodeDigit_ne_zero : ∀ d : Fin 62, encodeDigit (BitVec.ofNat 8 d.val) ≠ 0 := by
  decide

theorem encodedNumeral_visible {radix : Nat} (h1 : 1 < radix) (h2 : radix ≤ 62) (n : Nat) :
    ∀ c ∈ encodedNumeral radix n, c ≠ 0 := by
  apply numberCells_all (P := fun c => c ≠ 0) h1 (by decide)
  intro d hd
  exact encodeDigit_ne_zero ⟨d, Nat.lt_of_lt_of_le hd h2⟩

theorem digitValue_encodeDigit : ∀ d : Fin 62,
    digitValue (encodeDigit (BitVec.ofNat 8 d.val)).toNat =
      if d.val = 35 then none else some d.val := by
  decide

section Radix

variable {val : BitVec 64} {radix : BitVec 8} {buf : Ptr} {s : Machine σ}

theorem internalItoaBaseChange_terminates (h1 : 1 < radix.toNat) (h2 : radix.toNat ≤ 62)
    (hspan : Spans buf ((encodedNumeral radix.toNat val.toNat).length + 1)) :
    Returns (internalItoaBaseChange val buf radix) s fun _ t =>
      Terminated (byteAt buf t) (encodedNumeral radix.toNat val.toNat) := by
  apply (internalItoaBaseChange_writes h1 hspan).mono
  intro _ t ht
  exact terminated_block hspan (encodedNumeral_visible h1 h2 _) ht.1

theorem writesNumeral_internalItoaBaseChange (h1 : 1 < radix.toNat) (h2 : radix.toNat ≤ 62)
    (hspan : Spans buf ((numeral radix.toNat val.toNat).length + 1)) :
    WritesNumeral (internalItoaBaseChange val buf radix) s (byteAt buf) radix.toNat val.toNat ↔
      35 ∉ Nat.digits radix.toNat val.toNat := by
  have hlen : (encodedNumeral radix.toNat val.toNat).length =
      (numeral radix.toNat val.toNat).length := length_numberCells _ _ _ _ _ _
  rw [← hlen] at hspan
  exact writesNumeral_iff h1 h2 (by decide) digitValue_encodeDigit
    (internalItoaBaseChange_terminates h1 h2 hspan)

end Radix

end FeralKernel
