import FeralKernel.Console.PrintFmt

/-!
# A run of formatted printing

A `Console` is what the calls of `KiPrintFmt` reach, with what it shows.  On every console
the loop draws the tokens of its format one after the other, changes its own buffer beside
that, and accesses nothing but the format and what it prints.  The record of the calls is one
console.
-/

namespace FeralKernel

open Verif.Program Verif.Bytes

/-! ## Consoles -/

/-- What `BackingFunctions` points to, with what can be seen.  `own` are the bytes that the
console draws on, `draw` is what a call makes of what is shown, and `kept` are the other
static variables.  A `silent` console accesses no memory.  `KiPrintFmt` prints no lines but
empty ones. -/
structure Console (σ τ υ : Type) where
  call : ConsoleCall → Kern σ Unit
  shows : Machine σ → τ → Prop
  own : Nat → Prop
  draw : ConsoleCall → τ → τ
  kept : σ → υ
  silent : Prop
  /-- A character is drawn. -/
  char_spec : ∀ {s x} (c : ConsoleCall), (∀ string length, c ≠ .println string length) →
    shows s x → Returns (call c) s fun _ t => shows t (draw c x) ∧
      (∀ a, ¬ own a → t.mem a = s.mem a) ∧ kept t.statics = kept s.statics ∧
      (silent → t.log = s.log)
  /-- An empty line is drawn. -/
  line_spec : ∀ {s x} {string : Ptr}, CString s.mem string [] → ¬ own (phys string) → shows s x →
    Returns (call (.println string 0)) s fun _ t => shows t (draw (.println string 0) x) ∧
      (∀ a, ¬ own a → t.mem a = s.mem a) ∧ kept t.statics = kept s.statics ∧
      (silent → t.log = s.log)
  /-- What is shown is in the console's own bytes and the static variables. -/
  congr : ∀ {s t x}, shows s x → t.statics = s.statics → (∀ a, own a → t.mem a = s.mem a) →
    shows t x

/-- The bytes of the local buffers. -/
def InBuffer (buf : Ptr) (a : Nat) : Prop := phys buf ≤ a ∧ a < phys buf + 22

/-- The accesses to what a round at the character `cur` prints: the string argument, the local
buffer with the number in it, or a literal of the code. -/
inductive RoundPrints (literal : String → Ptr) (buf : Ptr) (args : Nat → BitVec 64)
    (values : List FmtValue) (st : FmtState) (cur : BitVec 8) (e : Event) : Prop where
  | string {text : List (BitVec 8)} (hup : st.upState = true) (hcur : cur = ch 's')
      (hvalue : values[st.arg]? = some (.string text))
      (he : LoadsFrom (args st.arg) (text.length + 1) e)
  | number {k : FmtKind} (hup : st.upState = true) (hkind : (FmtItem.directive cur).kind = some k)
      (hk : k ≠ .string) (he : AccessesTo buf 22 e)
  | percent (hup : st.upState = true) (hcur : cur = ch '%')
      (he : LoadsFrom (literal "%") ((chars "%").length + 1) e)
  | newline (hup : st.upState = false) (hcur : cur = ch '\n')
      (he : LoadsFrom (literal "") ((chars "").length + 1) e)
  | tab (hup : st.upState = false) (hcur : cur = ch '\t')
      (he : LoadsFrom (literal " ") ((chars " ").length + 1) e)

/-- What a round may record: loads of the format up to its terminator, and accesses to what it
prints. -/
def RoundRecords (literal : String → Ptr) (buf fmt : Ptr) (args : Nat → BitVec 64)
    (text : List (BitVec 8)) (values : List FmtValue) (st : FmtState) (cur : BitVec 8)
    (e : Event) : Prop :=
  LoadsFrom fmt (text.length + 1) e ∨ RoundPrints literal buf args values st cur e

/-- What the rounds may record together. -/
def RunRecords (literal : String → Ptr) (buf fmt : Ptr) (args : Nat → BitVec 64)
    (text : List (BitVec 8)) (values : List FmtValue) (e : Event) : Prop :=
  ∃ st cur, RoundRecords literal buf fmt args text values st cur e

namespace Console

variable {σ τ υ : Type} (C : Console σ τ υ)

def drawAll (calls : List ConsoleCall) (x : τ) : τ := calls.foldl (fun y c => C.draw c y) x

theorem drawAll_append (calls calls' : List ConsoleCall) (x : τ) :
    C.drawAll (calls ++ calls') x = C.drawAll calls' (C.drawAll calls x) :=
  List.foldl_append

/-- From `s`, which showed `x`, to `t` the calls have been drawn, and beside that only bytes
of `free` have changed and only accesses of `seen` have been made. -/
structure Drew (free : Nat → Prop) (seen : Event → Prop) (s : Machine σ) (x : τ)
    (calls : List ConsoleCall) (t : Machine σ) : Prop where
  shows : C.shows t (C.drawAll calls x)
  mem : ∀ a, ¬ C.own a → ¬ free a → t.mem a = s.mem a
  kept : C.kept t.statics = C.kept s.statics
  log : C.silent → Records seen s t

namespace Drew

variable {C} {free : Nat → Prop} {seen seen' : Event → Prop} {s t u : Machine σ} {x : τ}
  {calls calls' : List ConsoleCall}

theorem refl (h : C.shows s x) : C.Drew free seen s x [] s :=
  ⟨h, fun _ _ _ => rfl, rfl, fun _ => Records.refl _ s⟩

theorem trans (h : C.Drew free seen s x calls t)
    (h' : C.Drew free seen t (C.drawAll calls x) calls' u) :
    C.Drew free seen s x (calls ++ calls') u := by
  refine ⟨?_, fun a ha hf => ?_, h'.kept.trans h.kept, fun hs => (h.log hs).trans (h'.log hs)⟩
  · rw [C.drawAll_append]
    exact h'.shows
  · rw [h'.mem a ha hf, h.mem a ha hf]

theorem mono (h : C.Drew free seen s x calls t) (hseen : ∀ e, seen e → seen' e) :
    C.Drew free seen' s x calls t :=
  ⟨h.shows, h.mem, h.kept, fun hs => (h.log hs).mono hseen⟩

theorem widen (h : C.Drew (fun _ => False) seen s x calls t) : C.Drew free seen s x calls t :=
  ⟨h.shows, fun a ha _ => h.mem a ha not_false, h.kept, h.log⟩

/-- Code that writes to free bytes alone draws nothing. -/
theorem quiet (h : C.Drew free seen s x calls t) (hfree : ∀ a, C.own a → ¬ free a)
    (hm : ∀ a, ¬ free a → u.mem a = t.mem a) (hstat : u.statics = t.statics)
    (hrec : Records seen t u) : C.Drew free seen s x calls u := by
  refine ⟨C.congr h.shows hstat fun a ha => hm a (hfree a ha), fun a ha hf => ?_, ?_,
    fun hs => (h.log hs).trans hrec⟩
  · rw [hm a hf, h.mem a ha hf]
  · rw [hstat]
    exact h.kept

/-- Code that only reads. -/
theorem read (h : C.Drew free seen s x calls t) (hm : u.mem = t.mem) (hstat : u.statics = t.statics)
    (hrec : Records seen t u) : C.Drew free seen s x calls u := by
  refine ⟨C.congr h.shows hstat fun a _ => by rw [hm], fun a ha hf => ?_, ?_,
    fun hs => (h.log hs).trans hrec⟩
  · rw [hm, h.mem a ha hf]
  · rw [hstat]
    exact h.kept

/-- One load. -/
theorem load (h : C.Drew free seen s x calls t) {a : Ptr} {n : Nat} (he : seen (.read a n)) :
    C.Drew free seen s x calls (t.note (.read a n)) :=
  h.read rfl rfl ((Records.refl seen t).note he rfl)

theorem char (h : C.Drew free seen s x calls t) (c : ConsoleCall)
    (hc : ∀ string length, c ≠ .println string length) :
    Returns (C.call c) t fun _ u => C.Drew free seen s x (calls ++ [c]) u := by
  refine (C.char_spec c hc h.shows).mono fun _ u hu => ?_
  exact h.trans ⟨hu.1, fun a ha _ => hu.2.1 a ha, hu.2.2.1,
    fun hs => (Records.refl _ t).of_log_eq (hu.2.2.2 hs)⟩

theorem line (h : C.Drew free seen s x calls t) {string : Ptr} (hs : CString t.mem string [])
    (hown : ¬ C.own (phys string)) :
    Returns (C.call (.println string 0)) t fun _ u =>
      C.Drew free seen s x (calls ++ [.println string 0]) u := by
  refine (C.line_spec hs hown h.shows).mono fun _ u hu => ?_
  exact h.trans ⟨hu.1, fun a ha _ => hu.2.1 a ha, hu.2.2.1,
    fun hs => (Records.refl _ t).of_log_eq (hu.2.2.2 hs)⟩

end Drew

/-- A string that does not lie on the screen. -/
def Clear (a : Ptr) (text : List (BitVec 8)) : Prop :=
  ∀ k, k ≤ text.length → ¬ C.own (phys (a + BitVec.ofNat 64 k))

/-- What `KiPrintFmt` is given, with nothing of it on the screen. -/
structure Input (m : Mem) (literal : String → Ptr) (buf fmt : Ptr) (args : Nat → BitVec 64)
    (text : List (BitVec 8)) (values : List FmtValue) : Prop
    extends FmtInput m literal buf fmt args text values where
  bufClear : ∀ a, C.own a → ¬ InBuffer buf a
  fmtClear : C.Clear fmt text
  literalsClear : ∀ name ∈ ["", " ", "%"], C.Clear (literal name) (chars name)
  slotsClear : ∀ (k : Nat) (t : List (BitVec 8)), values[k]? = some (.string t) →
    C.Clear (args k) t

section Held

variable {C} {m m' : Mem} {literal : String → Ptr} {buf fmt a : Ptr} {args : Nat → BitVec 64}
  {text : List (BitVec 8)} {values : List FmtValue}
  (hm : ∀ a, ¬ C.own a → ¬ InBuffer buf a → m' a = m a)
include hm

/-- A string beside the screen and the buffer stays. -/
theorem heldString_of_clear (h : HeldString m buf a text) (hclear : C.Clear a text) :
    HeldString m' buf a text :=
  ⟨h.toCString.congr fun k hk => hm _ (hclear k hk) fun hin => by
    have hapart := h.apart k hk
    unfold InBuffer at hin
    omega, h.apart⟩

theorem Input.of_mem (h : C.Input m literal buf fmt args text values) :
    C.Input m' literal buf fmt args text values := by
  refine ⟨⟨h.nonnull, h.spans, heldString_of_clear hm h.format h.fmtClear, fun name hname => ?_,
    fun k v hv => ?_⟩, h.bufClear, h.fmtClear, h.literalsClear, h.slotsClear⟩
  · exact heldString_of_clear hm (h.literals name hname) (h.literalsClear name hname)
  · have hin := h.slots k v hv
    cases v with
    | string t => exact heldString_of_clear hm hin (h.slotsClear k t hv)
    | int32 v => exact hin
    | int64 v => exact hin
    | uint64 v => exact hin

end Held

/-! ## The print functions -/

section Print

variable {C} {s : Machine σ} {x : τ} {buf : Ptr} {text : List (BitVec 8)}

theorem kiPrintWith_spec (h : C.shows s x) {string : Ptr} (hs : CString s.mem string text)
    (hclear : C.Clear string text) :
    Returns (kiPrintWith C.call string) s fun _ t =>
      C.Drew (fun _ => False) (LoadsFrom string (text.length + 1)) s x (text.map .putChar) t := by
  have hnat : (BitVec.ofNat 64 text.length).toNat = text.length := by
    rw [BitVec.toNat_ofNat]
    exact Nat.mod_eq_of_lt hs.short
  rw [kiPrintWith, returns_bind]
  apply (kiGetStringLength_reads hs).mono
  intro r t ht
  obtain ⟨rfl, hm, hside, hrec⟩ := ht
  dsimp only [Option.getD_some]
  rw [if_neg (fun hne => hne rfl), hnat]
  -- after `i` rounds the first `i` characters are drawn
  refine Returns.bind (P := fun _ u => C.Drew (fun _ => False)
    (LoadsFrom string (text.length + 1)) s x
    ((text.take text.length).map ConsoleCall.putChar) u) ?_ ?_
  · apply returns_forRange (fun i _ u => C.Drew (fun _ => False)
      (LoadsFrom string (text.length + 1)) s x
      ((text.take i).map ConsoleCall.putChar) u) text.length
    · intro i _ u hi hI
      have hletter : u.mem (phys (string + BitVec.ofNat 64 i)) = text[i] := by
        rw [hI.mem _ (hclear i (Nat.le_of_lt hi)) not_false, hs.bytes i (Nat.le_of_lt hi),
          List.getD_eq_getElem _ _ hi]
      simp only [kiPutCharWith, returns_bind, returns_load8, returns_pure, hletter]
      have hread := hI.load (a := string + BitVec.ofNat 64 i) (n := 1) ⟨i, by omega, rfl⟩
      refine (hread.char (.putChar text[i]) (by simp)).mono fun _ w hw => ?_
      rw [← List.take_append_getElem hi, List.map_append]
      exact hw
    · omega
    · exact (Drew.refl h).read hm hside.1 hrec
  · intro _ u hu
    rw [List.take_length] at hu
    rw [returns_pure]
    exact hu

theorem printNumberWith_spec (h : C.shows s x) {n : Nat} {itoa : Ptr → Kern σ FeralStatus}
    (hbuf : buf ≠ 0) (hspan : Spans buf 22) (hclear : ∀ a, C.own a → ¬ InBuffer buf a)
    (hn : n ≤ 22) (htext : text.length + 1 ≤ n) (hvisible : ∀ c ∈ text, c ≠ 0)
    (hitoa : ∀ s, Returns (itoa buf) s fun _ t =>
      t.mem = block s.mem (phys buf) (text ++ [0]) ∧ SameSide s t ∧
      Records (AccessesTo buf (text.length + 1)) s t) :
    Returns (printNumberWith C.call buf n itoa) s fun _ t =>
      C.Drew (InBuffer buf) (AccessesTo buf 22) s x (text.map .putChar) t := by
  have hlen : (text ++ [(0 : BitVec 8)]).length = text.length + 1 := by simp
  rw [printNumberWith]
  refine Returns.bind (P := fun _ t => C.Drew (InBuffer buf) (AccessesTo buf 22) s x [] t) ?_ ?_
  · apply returns_forRange (fun _ _ t => C.Drew (InBuffer buf) (AccessesTo buf 22) s x [] t) n
    · intro i _ t hi hI
      rw [returns_store8]
      refine hI.quiet hclear (fun a ha => ?_) rfl
        ((Records.refl _ t).note (Or.inr ⟨i, by omega, rfl⟩) rfl)
      show write8 t.mem (phys (buf + BitVec.ofNat 64 i)) 0 a = _
      rw [phys_add hspan (by omega)]
      unfold InBuffer at ha
      exact write8_outside (by omega)
    · omega
    · exact Drew.refl h
  · intro _ t ht
    apply (hitoa t).bind
    intro _ u hu
    obtain ⟨hm, hside, hrec⟩ := hu
    have hstring : CString u.mem buf text := by
      rw [hm]
      exact cstring_block hbuf (hspan.mono (by omega)) hvisible
    have hquiet : C.Drew (InBuffer buf) (AccessesTo buf 22) s x [] u := by
      refine ht.quiet hclear (fun a ha => ?_) hside.1
        (hrec.mono fun e he => AccessesTo.mono he (by omega))
      unfold InBuffer at ha
      rw [hm, block_outside (by omega)]
    have hown : C.Clear buf text := by
      intro k hk hin
      refine hclear _ hin ⟨?_, ?_⟩
      · rw [phys_add hspan (by omega)]
        omega
      · rw [phys_add hspan (by omega)]
        omega
    apply (kiPrintWith_spec hquiet.shows hstring hown).bind
    intro _ v hv
    rw [returns_pure]
    exact hquiet.trans (hv.widen.mono fun e he => AccessesTo.mono (Or.inl he) (by omega))

end Print

/-! ## The rounds of `KiPrintFmt` -/

section Items

variable {C} {literal : String → Ptr} {buf fmt : Ptr} {args : Nat → BitVec 64}
  {text : List (BitVec 8)} {values : List FmtValue} {s : Machine σ} {x : τ}

/-- A numeric directive, for any of the conversions. -/
theorem printNumeral_spec (hs : C.shows s x) (h : C.Input s.mem literal buf fmt args text values)
    {n : Nat} (hn : n ≤ 22) {itoa : Ptr → Kern σ FeralStatus} {num : List (BitVec 8)}
    (hlen : num.length + 1 ≤ n) (hvisible : ∀ c ∈ num, c ≠ 0)
    (hitoa : ∀ s, Spans buf (num.length + 1) → Returns (itoa buf) s fun _ t =>
      t.mem = block s.mem (phys buf) (num ++ [0]) ∧ SameSide s t ∧
      Records (AccessesTo buf (num.length + 1)) s t) {st : FmtState} {c : BitVec 8} {k : FmtKind}
    (hup : st.upState = true) (hkind : (FmtItem.directive c).kind = some k) (hk : k ≠ .string) :
    Returns (printNumberWith C.call buf n itoa) s fun _ t =>
      C.Drew (InBuffer buf) (RoundPrints literal buf args values st c) s x (num.map .putChar) t :=
  (printNumberWith_spec hs h.nonnull h.spans h.bufClear hn hlen hvisible fun s =>
    hitoa s (h.spans.mono (by omega))).mono fun _ _ ht =>
      ht.mono fun _ he => .number hup hkind hk he

/-- A directive that takes a value draws its text and moves to the next argument. -/
theorem directiveWith_taken {α : Type} {y : Kern σ α} {c : BitVec 8} {st : FmtState} {k : FmtKind}
    {v : FmtValue} {seen : Event → Prop} (empty : Ptr) (hk : (FmtItem.directive c).kind = some k)
    (hv : values[st.arg]? = some v)
    (hy : Returns y s fun _ t => C.Drew (InBuffer buf) seen s x ((v.text c).map .putChar) t) :
    Returns (y >>= fun _ => pure { st with arg := st.arg + 1 }) s fun st' t =>
      st' = { st with arg := if (FmtItem.directive c).kind.isSome then st.arg + 1 else st.arg } ∧
      C.Drew (InBuffer buf) seen s x ((FmtItem.directive c).calls empty values[st.arg]?) t := by
  apply hy.bind
  intro _ t ht
  rw [returns_pure, hv]
  simp only [FmtItem.calls, hk, Option.isSome_some, if_true]
  exact ⟨trivial, ht⟩

theorem formatDirectiveWith_spec (hs : C.shows s x)
    (h : C.Input s.mem literal buf fmt args text values) {c : BitVec 8} (hdigit : ¬ IsDigit c)
    {st : FmtState} (hup : st.upState = true) (hkind : ∀ k, (FmtItem.directive c).kind = some k →
      ∃ v, values[st.arg]? = some v ∧ v.kind = k) :
    Returns (formatDirectiveWith C.call literal buf fmt args c st) s fun st' t =>
      st' = { st with arg := if (FmtItem.directive c).kind.isSome then st.arg + 1 else st.arg } ∧
      C.Drew (InBuffer buf) (RoundPrints literal buf args values st c) s x
        ((FmtItem.directive c).calls (literal "") values[st.arg]?) t := by
  rw [formatDirectiveWith]
  by_cases hstr : c = ch 's'
  · have hk : (FmtItem.directive c).kind = some .string := by rw [hstr]; rfl
    obtain ⟨v, hv, hvk⟩ := hkind _ hk
    obtain ⟨t, rfl⟩ := FmtValue.eq_string hvk
    have hheld : HeldString s.mem buf (args st.arg) t := h.slots _ _ hv
    rw [if_pos hstr]
    refine directiveWith_taken _ hk hv ?_
    exact (kiPrintWith_spec hs hheld.toCString (h.slotsClear _ t hv)).mono fun _ _ hu =>
      hu.widen.mono fun _ he => .string hup hstr hv he
  rw [if_neg hstr]
  by_cases hi : c = ch 'i'
  · have hk : (FmtItem.directive c).kind = some .int32 := by rw [hi]; rfl
    obtain ⟨v, hv, hvk⟩ := hkind _ hk
    obtain ⟨v, rfl⟩ := FmtValue.eq_int32 hvk
    have hslot : (args st.arg).setWidth 32 = v := h.slots _ _ hv
    have hint : (v.signExtend 64).toInt = v.toInt := BitVec.toInt_signExtend_of_le (by decide)
    have hlen := length_signedNumeral_le (v.signExtend 64)
    rw [if_pos hi, hslot]
    refine directiveWith_taken _ hk hv ?_
    show Returns _ _ fun _ t => C.Drew _ _ s x ((signedNumeral v.toInt).map .putChar) t
    rw [← hint]
    exact printNumeral_spec hs h (by decide) (by omega) (signedNumeral_visible _)
      (fun s hspan => kiItoaSigned_spec hspan) hup hk (by decide)
  rw [if_neg hi]
  by_cases hl : c = ch 'l'
  · have hk : (FmtItem.directive c).kind = some .int64 := by rw [hl]; rfl
    obtain ⟨v, hv, hvk⟩ := hkind _ hk
    obtain ⟨v, rfl⟩ := FmtValue.eq_int64 hvk
    have hslot : args st.arg = v := h.slots _ _ hv
    have hlen := length_signedNumeral_le v
    rw [if_pos hl, hslot]
    refine directiveWith_taken _ hk hv ?_
    show Returns _ _ fun _ t => C.Drew _ _ s x ((signedNumeral v.toInt).map .putChar) t
    exact printNumeral_spec hs h (by decide) (by omega) (signedNumeral_visible _)
      (fun s hspan => kiItoaSigned_spec hspan) hup hk (by decide)
  rw [if_neg hl]
  by_cases hu : c = ch 'u'
  · have hk : (FmtItem.directive c).kind = some .uint64 := by rw [hu]; rfl
    obtain ⟨v, hv, hvk⟩ := hkind _ hk
    obtain ⟨v, rfl⟩ := FmtValue.eq_uint64 hvk
    have hslot : args st.arg = v := h.slots _ _ hv
    have htext : (FmtValue.uint64 v).text c = numeral 10 v.toNat := by rw [hu]; rfl
    have hlen : (numeral 10 v.toNat).length ≤ 20 :=
      length_numeral_le (by decide) (by decide) (Nat.lt_trans v.isLt (by decide))
    rw [if_pos hu, hslot]
    refine directiveWith_taken _ hk hv ?_
    rw [htext]
    exact printNumeral_spec hs h (by decide) (by omega) (numeral_visible (by decide) (by decide) _)
      (fun s hspan => kiItoa_spec hspan) hup hk (by decide)
  rw [if_neg hu]
  by_cases hx : c = ch 'x'
  · have hk : (FmtItem.directive c).kind = some .uint64 := by rw [hx]; rfl
    obtain ⟨v, hv, hvk⟩ := hkind _ hk
    obtain ⟨v, rfl⟩ := FmtValue.eq_uint64 hvk
    have hslot : args st.arg = v := h.slots _ _ hv
    have htext : (FmtValue.uint64 v).text c = numeral 16 v.toNat := by rw [hx]; rfl
    have hlen : (numeral 16 v.toNat).length ≤ 16 :=
      length_numeral_le (by decide) (by decide) (Nat.lt_of_lt_of_le v.isLt (by decide))
    rw [if_pos hx, hslot]
    refine directiveWith_taken _ hk hv ?_
    rw [htext]
    refine printNumeral_spec hs h (by decide) (Nat.lt_succ_of_le hlen)
      (numeral_visible (by decide) (by decide) _) (fun s hspan => ?_) hup hk (by decide)
    exact kiItoaBase_spec (show 1 < (16 : BitVec 8).toNat by decide) (by decide) hspan
  rw [if_neg hx]
  have hk : (FmtItem.directive c).kind = none := by
    rw [FmtItem.kind, if_neg hstr, if_neg hi, if_neg hl, if_neg (not_or.mpr ⟨hu, hx⟩)]
  simp only [FmtItem.calls, hk, Option.isSome_none]
  by_cases hp : c = ch '%'
  · rw [if_pos hp, if_pos hp]
    apply (kiPrintWith_spec hs (h.literals "%" (by decide)).toCString
      (h.literalsClear "%" (by decide))).bind
    intro _ t ht
    rw [returns_pure]
    exact ⟨rfl, ht.widen.mono fun _ he => .percent hup hp he⟩
  · rw [IsDigit] at hdigit
    rw [if_neg hp, if_neg hp, if_neg hdigit, returns_pure]
    exact ⟨rfl, Drew.refl hs⟩

/-- A character outside a directive. -/
theorem printLiteralWith_spec (hs : C.shows s x)
    (h : C.Input s.mem literal buf fmt args text values) {c : BitVec 8} (hc : c ≠ ch '%')
    {st : FmtState} (hst : st.upState = false) (value : Option FmtValue) :
    Returns (printFmtStepWith C.call literal buf fmt args c st) s fun st' t =>
      st' = st ∧ C.Drew (InBuffer buf) (RoundPrints literal buf args values st c) s x
        ((FmtItem.literal c).calls (literal "") value) t := by
  rw [printFmtStepWith, if_neg (fun hp => hc hp.1), if_neg (by rw [hst]; decide), FmtItem.calls]
  by_cases hprint : (ch ' ').toInt ≤ c.toInt
  · rw [if_pos hprint, if_pos hprint]
    simp only [kiPutCharWith, returns_bind, returns_pure]
    exact ((Drew.refl hs).char (.putChar c) (by simp)).mono fun _ _ hu => ⟨trivial, hu⟩
  rw [if_neg hprint, if_neg hprint]
  by_cases hnewline : c = ch '\n'
  · have hheld := h.literals "" (by decide)
    have hclear : ¬ C.own (phys (literal "")) := by
      have hstart : literal "" + BitVec.ofNat 64 0 = literal "" := BitVec.add_zero _
      rw [← hstart]
      exact h.literalsClear "" (by decide) 0 (Nat.zero_le _)
    rw [if_pos hnewline, if_pos hnewline, kiPrintLineWith, bind_assoc, returns_bind]
    apply (kiGetStringLength_reads hheld.toCString).mono
    intro r t ht
    obtain ⟨rfl, hm, hside, hrec⟩ := ht
    have hread : C.Drew (InBuffer buf) (RoundPrints literal buf args values st c) s x [] t :=
      (Drew.refl hs).read hm hside.1 (hrec.mono fun _ he => .newline hst hnewline he)
    have hempty : CString t.mem (literal "") [] := by
      rw [hm]
      exact hheld.toCString
    dsimp only [Option.getD_some]
    rw [if_neg (fun hne => hne rfl), bind_assoc, returns_bind]
    refine (hread.line hempty hclear).mono fun _ u hu => ?_
    rw [pure_bind, returns_pure]
    exact ⟨rfl, hu⟩
  rw [if_neg hnewline, if_neg hnewline]
  by_cases htab : c = ch '\t'
  · rw [if_pos htab, if_pos htab]
    refine Returns.bind (P := fun _ t => C.Drew (InBuffer buf)
      (RoundPrints literal buf args values st c) s x
      (List.replicate 8 (ConsoleCall.putChar (ch ' '))) t) ?_ ?_
    · apply returns_forRange (fun i _ t => C.Drew (InBuffer buf)
        (RoundPrints literal buf args values st c) s x
        (List.replicate i (ConsoleCall.putChar (ch ' '))) t) 8
      · intro i _ t _ hI
        have hin := h.of_mem hI.mem
        apply (kiPrintWith_spec hI.shows (hin.literals " " (by decide)).toCString
          (hin.literalsClear " " (by decide))).bind
        intro _ u hu
        rw [returns_pure, List.replicate_succ']
        exact hI.trans (hu.widen.mono fun _ he => .tab hst htab he)
      · rfl
      · exact Drew.refl hs
    · intro _ t ht
      rw [returns_pure]
      exact ⟨rfl, ht⟩
  · rw [if_neg htab, if_neg htab, returns_pure]
    exact ⟨rfl, Drew.refl hs⟩

/-- A digit behind a `%`: it is drawn as often as the character behind it says. -/
theorem formatPaddingWith_spec (hs : C.shows s x)
    (h : C.Input s.mem literal buf fmt args text values) {c : BitVec 8} (hdigit : IsDigit c)
    {st : FmtState} {i : Nat} (hindex : st.index = BitVec.ofNat 64 i) (hi : i < text.length) :
    Returns (formatDirectiveWith C.call literal buf fmt args c st) s fun st' t =>
      st' = { st with index := st.index + 1 } ∧
      C.Drew (InBuffer buf) (LoadsFrom fmt (text.length + 1)) s x
        (if text.getD (i + 1) 0 = 0 then []
          else List.replicate (text.getD (i + 1) 0 - ch '0').toNat (.vgaPutChar c)) t := by
  have hrange : (ch '0').toInt ≤ c.toInt ∧ c.toInt ≤ (ch '9').toInt := hdigit
  have hsucc : st.index + 1 = BitVec.ofNat 64 (i + 1) := by
    rw [hindex, BitVec.ofNat_add]
    rfl
  have hnext : s.mem (phys (fmt + (st.index + 1))) = text.getD (i + 1) 0 := by
    rw [hsucc, h.format.bytes (i + 1) hi]
  have hread : C.Drew (InBuffer buf) (LoadsFrom fmt (text.length + 1)) s x []
      (s.note (.read (fmt + (st.index + 1)) 1)) :=
    (Drew.refl hs).load ⟨i + 1, by omega, by rw [hsucc]⟩
  rw [formatDirectiveWith, if_neg (hdigit.ne (by decide)), if_neg (hdigit.ne (by decide)),
    if_neg (hdigit.ne (by decide)), if_neg (hdigit.ne (by decide)), if_neg (hdigit.ne (by decide)),
    if_neg (hdigit.ne (by decide)), if_pos hrange, returns_bind, returns_load8, hnext]
  by_cases hzero : text.getD (i + 1) 0 = 0
  · rw [if_neg (fun hne => hne hzero), if_pos hzero, returns_pure]
    exact ⟨rfl, hread⟩
  · rw [if_pos hzero, if_neg hzero]
    refine Returns.bind (P := fun _ t => C.Drew (InBuffer buf)
      (LoadsFrom fmt (text.length + 1)) s x
      (List.replicate (text.getD (i + 1) 0 - ch '0').toNat (ConsoleCall.vgaPutChar c)) t) ?_ ?_
    · apply returns_forRange (fun k _ t => C.Drew (InBuffer buf)
        (LoadsFrom fmt (text.length + 1)) s x (List.replicate k (ConsoleCall.vgaPutChar c)) t)
        (text.getD (i + 1) 0 - ch '0').toNat
      · intro k _ t _ hI
        rw [List.replicate_succ']
        exact hI.char (.vgaPutChar c) (by simp)
      · omega
      · exact hread
    · intro _ t ht
      rw [returns_pure]
      exact ⟨rfl, ht⟩

/-- The step lemma of the loop: one round of `KiPrintFmt` draws the token that it ends. -/
theorem printFmtStepWith_spec (hs : C.shows s x)
    (h : C.Input s.mem literal buf fmt args text values) {p : FmtPos} (hi : p.index < text.length)
    (hkind : ∀ k, ((p.token text[p.index] (text.getD (p.index + 1) 0)).bind FmtToken.kind) =
      some k → ∃ v, values[p.arg]? = some v ∧ v.kind = k) :
    Returns (printFmtStepWith C.call literal buf fmt args text[p.index] p.state) s fun st t =>
      { st with index := st.index + 1 } = (p.next text[p.index]).state ∧
      C.Drew (InBuffer buf)
        (RoundRecords literal buf fmt args text values p.state text[p.index]) s x
        ((p.token text[p.index] (text.getD (p.index + 1) 0)).toList.flatMap
          (FmtToken.calls (literal "") values[p.arg]?)) t := by
  have hsucc : p.state.index + 1 = BitVec.ofNat 64 (p.index + 1) := by
    rw [FmtPos.state, BitVec.ofNat_add]
    rfl
  generalize hc : text[p.index] = c at hkind
  cases hup : p.upState with
  | true =>
    have hst : p.state.upState = true := hup
    rw [printFmtStepWith, if_neg (by rw [hst]; simp), if_pos hst]
    by_cases hdigit : IsDigit c
    · apply (formatPaddingWith_spec hs h hdigit rfl hi).bind
      intro st t ht
      obtain ⟨rfl, hdrew⟩ := ht
      rw [returns_pure]
      refine ⟨?_, ?_⟩
      · rw [FmtPos.next, if_pos hup, if_pos hdigit, hsucc]
        show FmtState.mk (BitVec.ofNat 64 (p.index + 1) + 1) false p.arg = _
        rw [FmtPos.state, BitVec.ofNat_add (p.index + 1) 1]
        rfl
      · rw [FmtPos.token, if_pos hup, if_pos hdigit]
        by_cases hzero : text.getD (p.index + 1) 0 = 0
        · rw [if_pos hzero] at hdrew ⊢
          exact hdrew.mono fun _ => Or.inl
        · rw [if_neg hzero] at hdrew ⊢
          rw [Option.toList_some, List.flatMap_singleton]
          exact hdrew.mono fun _ => Or.inl
    · have htoken : p.token c (text.getD (p.index + 1) 0) = some (.item (.directive c)) := by
        rw [FmtPos.token, if_pos hup, if_neg hdigit]
      rw [htoken] at hkind ⊢
      have hdirective : ∀ k, (FmtItem.directive c).kind = some k →
          ∃ v, values[p.state.arg]? = some v ∧ v.kind = k := hkind
      apply (formatDirectiveWith_spec hs h hdigit hst hdirective).bind
      intro st t ht
      obtain ⟨rfl, hdrew⟩ := ht
      rw [returns_pure]
      refine ⟨?_, ?_⟩
      · rw [FmtPos.next, if_pos hup, if_neg hdigit, hsucc]
        rfl
      · rw [Option.toList_some, List.flatMap_singleton]
        exact hdrew.mono fun _ => Or.inr
  | false =>
    have hst : p.state.upState = false := hup
    by_cases hp : c = ch '%'
    · rw [printFmtStepWith, if_pos ⟨hp, hst⟩, returns_pure]
      refine ⟨?_, ?_⟩
      · rw [FmtPos.next, if_neg (by rw [hup]; decide), hsucc, decide_eq_true hp]
        rfl
      · rw [FmtPos.token, if_neg (by rw [hup]; decide), if_pos hp]
        exact Drew.refl hs
    · apply (printLiteralWith_spec hs h hp hst values[p.arg]?).mono
      intro st t ht
      obtain ⟨rfl, hdrew⟩ := ht
      refine ⟨?_, ?_⟩
      · rw [FmtPos.next, if_neg (by rw [hup]; decide), hsucc, decide_eq_false hp]
        show FmtState.mk _ p.upState p.arg = _
        rw [hup]
        rfl
      · rw [FmtPos.token, if_neg (by rw [hup]; decide), if_neg hp, Option.toList_some,
          List.flatMap_singleton]
        exact hdrew.mono fun _ => Or.inr

/-- One round of the loop. -/
theorem printFmtRoundWith_spec (hs : C.shows s x)
    (h : C.Input s.mem literal buf fmt args text values) {p : FmtPos} (hi : p.index < text.length)
    (hkind : ∀ k, ((p.token text[p.index] (text.getD (p.index + 1) 0)).bind FmtToken.kind) =
      some k → ∃ v, values[p.arg]? = some v ∧ v.kind = k) :
    Returns (printFmtRoundWith C.call literal buf fmt args p.state) s fun r t =>
      r = .inr (p.next text[p.index]).state ∧
      C.Drew (InBuffer buf)
        (RoundRecords literal buf fmt args text values p.state text[p.index]) s x
        ((p.token text[p.index] (text.getD (p.index + 1) 0)).toList.flatMap
          (FmtToken.calls (literal "") values[p.arg]?)) t := by
  have hcur : s.mem (phys (fmt + p.state.index)) = text[p.index] := by
    rw [FmtPos.state, h.format.bytes p.index (by omega), List.getD_eq_getElem _ _ hi]
  have hload : C.Drew (InBuffer buf)
      (RoundRecords literal buf fmt args text values p.state text[p.index]) s x []
      (s.note (.read (fmt + p.state.index) 1)) :=
    (Drew.refl hs).load (Or.inl ⟨p.index, by omega, rfl⟩)
  rw [printFmtRoundWith, returns_bind, returns_load8, hcur,
    if_pos (h.format.visible _ (List.getElem_mem hi))]
  refine (printFmtStepWith_spec hload.shows h hi hkind).bind fun st t ht => ?_
  rw [returns_pure, ht.1]
  exact ⟨rfl, hload.trans ht.2⟩

/-- The round at the end of the format leaves the loop. -/
theorem printFmtRoundWith_end (call : ConsoleCall → Kern σ Unit) {p : FmtPos}
    (h : CString s.mem fmt text) (hi : p.index = text.length) :
    Returns (printFmtRoundWith call literal buf fmt args p.state) s fun r t =>
      r = .inl () ∧ t = s.note (.read (fmt + BitVec.ofNat 64 text.length) 1) := by
  have hcur : s.mem (phys (fmt + p.state.index)) = 0 := by
    rw [FmtPos.state, hi, h.byte_zero]
  rw [printFmtRoundWith, returns_bind, returns_load8, hcur, if_neg (fun hne => hne rfl),
    returns_pure, FmtPos.state, hi]
  exact ⟨rfl, rfl⟩

/-- What is known at a place of the loop: some calls have been drawn, and with those of the
tokens to come they are all the calls. -/
def FmtAt (C : Console σ τ υ) (literal : String → Ptr) (buf fmt : Ptr) (args : Nat → BitVec 64)
    (text : List (BitVec 8)) (values : List FmtValue) (s : Machine σ) (x : τ) (p : FmtPos)
    (t : Machine σ) : Prop :=
  FmtSuffices (p.tokens text) (values.drop p.arg) ∧ ∃ calls,
    C.Drew (InBuffer buf) (RunRecords literal buf fmt args text values) s x calls t ∧
      calls ++ tokenCalls (literal "") (p.tokens text) (values.drop p.arg) =
        tokenCalls (literal "") (fmtTokens false text) values

theorem FmtAt.start (hs : C.shows s x) (hkinds : FmtSuffices (fmtTokens false text) values) :
    FmtAt C literal buf fmt args text values s x FmtPos.start s :=
  ⟨hkinds, [], Drew.refl hs, rfl⟩

theorem FmtAt.input {p : FmtPos} {t : Machine σ}
    (h : FmtAt C literal buf fmt args text values s x p t)
    (hinput : C.Input s.mem literal buf fmt args text values) :
    C.Input t.mem literal buf fmt args text values := by
  obtain ⟨-, calls, hdrew, -⟩ := h
  exact hinput.of_mem hdrew.mem

/-- One round of the loop, with what is known before and after it. -/
theorem FmtAt.round {p : FmtPos} {t : Machine σ}
    (hinput : C.Input s.mem literal buf fmt args text values)
    (h : FmtAt C literal buf fmt args text values s x p t) (hi : p.index < text.length) :
    Returns (printFmtRoundWith C.call literal buf fmt args p.state) t fun r u =>
      r = .inr (p.next text[p.index]).state ∧
      FmtAt C literal buf fmt args text values s x (p.next text[p.index]) u ∧
      (C.silent →
        Records (RoundRecords literal buf fmt args text values p.state text[p.index]) t u) := by
  have hin := h.input hinput
  obtain ⟨hkinds, calls, hdrew, hcalls⟩ := h
  have htokens := FmtPos.tokens_next hinput.format.visible hi
  have harg := p.next_arg text[p.index] (text.getD (p.index + 1) 0)
  rw [htokens] at hkinds hcalls
  have hround := fun hkind => printFmtRoundWith_spec (p := p) hdrew.shows hin hi hkind
  have hrun : ∀ {u calls'}, C.Drew (InBuffer buf) (RoundRecords literal buf fmt args text values
      p.state text[p.index]) t (C.drawAll calls x) calls' u →
      C.Drew (InBuffer buf) (RunRecords literal buf fmt args text values) s x (calls ++ calls') u :=
    fun hu => hdrew.trans (hu.mono fun _ he => ⟨_, _, he⟩)
  cases htok : p.token text[p.index] (text.getD (p.index + 1) 0) with
  | none =>
    rw [htok] at hkinds hcalls harg hround
    refine (hround (by intro k hk; cases hk)).mono fun r u hu => ?_
    refine ⟨hu.1, ⟨?_, _, hrun hu.2, ?_⟩, hu.2.log⟩
    · rw [harg]
      exact hkinds
    · rw [harg]
      simpa using hcalls
  | some token =>
    rw [htok] at hkinds hcalls harg hround
    refine (hround fun k hk => hkinds.head hk).mono fun r u hu => ?_
    refine ⟨hu.1, ⟨?_, _, hrun hu.2, ?_⟩, hu.2.log⟩
    · rw [harg]
      exact hkinds.tail
    · rw [harg]
      simp only [Option.toList_some, List.singleton_append, tokenCalls_cons] at hcalls
      simpa using hcalls

/-- `KiPrintFmt` draws the calls of the tokens of its format in order, and the last thing it
does is to read the terminator. -/
theorem kiPrintFmtWith_tokens (hs : C.shows s x)
    (h : C.Input s.mem literal buf fmt args text values)
    (hcut : ∀ c, FmtToken.cut c ∉ fmtTokens false text)
    (hkinds : FmtSuffices (fmtTokens false text) values) :
    Returns (kiPrintFmtWith C.call literal buf fmt args) s fun status t => status = .success ∧
      C.Drew (InBuffer buf) (RunRecords literal buf fmt args text values) s x
        (tokenCalls (literal "") (fmtTokens false text) values) t ∧
      t.log.head? = some (.read (fmt + BitVec.ofNat 64 text.length) 1) := by
  rw [kiPrintFmtWith]
  refine Returns.bind (P := fun _ t => C.Drew (InBuffer buf)
    (RunRecords literal buf fmt args text values) s x
    (tokenCalls (literal "") (fmtTokens false text) values) t ∧
    t.log.head? = some (.read (fmt + BitVec.ofNat 64 text.length) 1)) ?_ ?_
  · refine returns_iterate (fun k st t => ∃ p : FmtPos, st = p.state ∧
      p.index + k = text.length ∧ (∀ c, FmtToken.cut c ∉ p.tokens text) ∧
      FmtAt C literal buf fmt args text values s x p t) ?_ loopBound text.length _ s
      h.format.short ⟨FmtPos.start, rfl, Nat.zero_add _, hcut, FmtAt.start hs hkinds⟩
    intro k st t hI
    obtain ⟨p, rfl, hk, hcut, hat⟩ := hI
    by_cases hend : p.index = text.length
    · refine (printFmtRoundWith_end C.call (hat.input h).format.toCString hend).mono fun r u hu => ?_
      obtain ⟨rfl, rfl⟩ := hu
      obtain ⟨-, calls, hdrew, hcalls⟩ := hat
      have hnone : p.tokens text = [] := by
        rw [FmtPos.tokens, hend, List.drop_length, fmtTokens_nil]
      rw [hnone, tokenCalls, List.append_nil] at hcalls
      rw [← hcalls]
      exact ⟨hdrew.load ⟨p.state, 0, Or.inl ⟨text.length, Nat.lt_succ_self _, rfl⟩⟩, rfl⟩
    · have hi : p.index < text.length := by omega
      have hnext := FmtPos.next_index_le hi hcut
      have hlt := p.lt_next text[p.index]
      refine (hat.round h hi).mono fun r u hu => ?_
      obtain ⟨rfl, hat', -⟩ := hu
      refine ⟨text.length - (p.next text[p.index]).index, by omega, _, rfl, by omega, ?_, hat'⟩
      exact fun c => FmtPos.not_cut_next h.format.visible hi (hcut c)
  · intro _ t ht
    rw [returns_pure]
    exact ⟨rfl, ht⟩

end Items

end Console

/-! ## The record of the calls -/

/-- The console that shows the calls themselves. -/
def recorder : Console (List ConsoleCall) (List ConsoleCall) Unit where
  call := makeCall
  shows s calls := s.statics = calls
  own _ := False
  draw c calls := calls ++ [c]
  kept _ := ()
  silent := True
  char_spec c _ h := by
    rw [returns_makeCall]
    exact ⟨by rw [← h], fun _ _ => rfl, rfl, fun _ => rfl⟩
  line_spec _ _ h := by
    rw [returns_makeCall]
    exact ⟨by rw [← h], fun _ _ => rfl, rfl, fun _ => rfl⟩
  congr h hstat _ := hstat.trans h

theorem recorder_drawAll (calls : List ConsoleCall) : ∀ x : List ConsoleCall,
    recorder.drawAll calls x = x ++ calls := by
  induction calls with
  | nil => exact fun x => (List.append_nil x).symm
  | cons c calls ih =>
    intro x
    rw [show recorder.drawAll (c :: calls) x = recorder.drawAll calls (x ++ [c]) from rfl, ih,
      List.append_assoc]
    rfl

section Recorded

variable {literal : String → Ptr} {buf fmt : Ptr} {args : Nat → BitVec 64}
variable {text : List (BitVec 8)} {values : List FmtValue} {s : Machine (List ConsoleCall)}

theorem FmtInput.recorded {m : Mem} (h : FmtInput m literal buf fmt args text values) :
    recorder.Input m literal buf fmt args text values :=
  ⟨h, fun _ ha => ha.elim, fun _ _ ha => ha, fun _ _ _ _ ha => ha, fun _ _ _ _ _ ha => ha⟩

theorem Console.Drew.recorded {seen : Event → Prop} {calls : List ConsoleCall}
    {t : Machine (List ConsoleCall)}
    (h : recorder.Drew (InBuffer buf) seen s s.statics calls t) :
    SameOutside buf s.mem t.mem ∧ t.statics = s.statics ++ calls ∧ Records seen s t := by
  refine ⟨fun a ha => h.mem a not_false fun hin => ?_, ?_, h.log trivial⟩
  · unfold InBuffer at hin
    omega
  · rw [← recorder_drawAll]
    exact h.shows

/-- One round goes on to its next place and changes the buffer alone. -/
theorem printFmtRound_spec (h : FmtInput s.mem literal buf fmt args text values) {p : FmtPos}
    (hi : p.index < text.length)
    (hkind : ∀ k, ((p.token text[p.index] (text.getD (p.index + 1) 0)).bind FmtToken.kind) =
      some k → ∃ v, values[p.arg]? = some v ∧ v.kind = k) :
    Returns (printFmtRound literal buf fmt args p.state) s fun r t =>
      r = .inr (p.next text[p.index]).state ∧ SameOutside buf s.mem t.mem := by
  refine (Console.printFmtRoundWith_spec (C := recorder) rfl h.recorded hi hkind).mono ?_
  intro r t ht
  exact ⟨ht.1, ht.2.recorded.1⟩

/-- The round at the end of the format leaves the loop. -/
theorem printFmtRound_end (h : FmtInput s.mem literal buf fmt args text values) {p : FmtPos}
    (hi : p.index = text.length) :
    Returns (printFmtRound literal buf fmt args p.state) s fun r t =>
      r = .inl () ∧ t = s.note (.read (fmt + BitVec.ofNat 64 text.length) 1) :=
  Console.printFmtRoundWith_end makeCall h.format.toCString hi

/-- The loop over a format without a cut makes the calls of its tokens in order. -/
theorem kiPrintFmt_tokens (h : FmtInput s.mem literal buf fmt args text values)
    (hcut : ∀ c, FmtToken.cut c ∉ fmtTokens false text)
    (hkinds : FmtSuffices (fmtTokens false text) values) :
    Returns (kiPrintFmt literal buf fmt args) s fun status t =>
      status = .success ∧
      t.statics = s.statics ++ tokenCalls (literal "") (fmtTokens false text) values ∧
      Records (RunRecords literal buf fmt args text values) s t ∧
      t.log.head? = some (.read (fmt + BitVec.ofNat 64 text.length) 1) := by
  refine (Console.kiPrintFmtWith_tokens (C := recorder) rfl h.recorded hcut hkinds).mono ?_
  intro status t ht
  obtain ⟨hst, hdrew, hlast⟩ := ht
  exact ⟨hst, hdrew.recorded.2.1, hdrew.recorded.2.2, hlast⟩

/-- For every format without padding and every list of matching arguments, the calls
are those of the items in order, and the `k`-th item that takes a value prints the
`k`-th one. -/
theorem kiPrintFmt_calls (h : FmtInput s.mem literal buf fmt args text values)
    (hdigit : ∀ c, FmtItem.directive c ∈ fmtItems text → ¬ IsDigit c)
    (hmatch : FmtMatches (fmtItems text) values) :
    Returns (kiPrintFmt literal buf fmt args) s fun status t =>
      status = .success ∧
      t.statics = s.statics ++ fmtCalls (literal "") (fmtItems text) values := by
  have htokens := fmtTokens_eq_items text hdigit
  have hcut : ∀ c, FmtToken.cut c ∉ fmtTokens false text := by
    rw [htokens]
    intro c hc
    obtain ⟨item, -, he⟩ := List.mem_map.mp hc
    cases he
  have hkinds : FmtSuffices (fmtTokens false text) values := by
    rw [htokens, FmtSuffices, List.filterMap_map, ← hmatch]
    exact List.prefix_rfl
  have hrun := kiPrintFmt_tokens h hcut hkinds
  rw [htokens, tokenCalls_items] at hrun
  exact hrun.mono fun status t ht => ⟨ht.1, ht.2.1⟩


end Recorded

/-! ## A format in memory -/

/-- The strings of a call `KiPrintFmt("%s: %i%%\n", "ok", -5)` with its buffer at
16 KiB. -/
def fmtMachine : Machine (List ConsoleCall) where
  mem := block (block (block (block (fun _ => 0) 0x1010 (chars " ")) 0x1020 (chars "%"))
    0x2000 (chars "%s: %i%%\n")) 0x3000 (chars "ok")
  log := []
  statics := []

def fmtLiteral (name : String) : Ptr :=
  if name = "" then 0x1000 else if name = " " then 0x1010 else 0x1020

def fmtArgs (k : Nat) : BitVec 64 := if k = 0 then 0x3000 else 0xFFFFFFFB

/-- A string given by a check of each of its bytes. -/
theorem heldString_of_all {m : Mem} {buf a : Ptr} {text : List (BitVec 8)} (hnull : a ≠ 0)
    (hshort : text.length < 2 ^ 64)
    (hbytes : ∀ k, k ≤ text.length → m (phys (a + BitVec.ofNat 64 k)) = text.getD k 0)
    (hvisible : text.all (· != 0) = true)
    (hapart : ∀ k, k ≤ text.length → phys (a + BitVec.ofNat 64 k) < phys buf ∨
      phys buf + 22 ≤ phys (a + BitVec.ofNat 64 k)) : HeldString m buf a text := by
  refine ⟨⟨hnull, hshort, hbytes, fun c hc => ?_⟩, hapart⟩
  exact bne_iff_ne.mp (List.all_eq_true.mp hvisible c hc)

theorem fmtMachine_input :
    FmtInput fmtMachine.mem fmtLiteral 0x4000 0x2000 fmtArgs (chars "%s: %i%%\n")
      [.string (chars "ok"), .int32 (-5)] := by
  refine ⟨by decide, by unfold Spans; decide, ?_, ?_, ?_⟩
  · exact heldString_of_all (by decide) (by decide) (by decide) (by decide) (by decide)
  · intro name hname
    rcases List.mem_cons.mp hname with rfl | hname
    · exact heldString_of_all (by decide) (by decide) (by decide) (by decide) (by decide)
    · rcases List.mem_cons.mp hname with rfl | hname
      · exact heldString_of_all (by decide) (by decide) (by decide) (by decide) (by decide)
      · rw [List.mem_singleton.mp hname]
        exact heldString_of_all (by decide) (by decide) (by decide) (by decide) (by decide)
  · intro k v hv
    match k with
    | 0 =>
      cases hv
      exact heldString_of_all (by decide) (by decide) (by decide) (by decide) (by decide)
    | 1 =>
      cases hv
      show (fmtArgs 1).setWidth 32 = -5
      decide
    | k + 2 => cases hv

theorem kiPrintFmt_calls_ok :
    Returns (kiPrintFmt fmtLiteral 0x4000 0x2000 fmtArgs) fmtMachine fun status t =>
      status = .success ∧ t.statics = [] ++ fmtCalls 0x1000 (fmtItems (chars "%s: %i%%\n"))
        [.string (chars "ok"), .int32 (-5)] := by
  have hitems : fmtItems (chars "%s: %i%%\n") = [.directive (ch 's'), .literal (ch ':'),
      .literal (ch ' '), .directive (ch 'i'), .directive (ch '%'), .literal (ch '\n')] := by
    decide
  refine kiPrintFmt_calls fmtMachine_input ?_ ?_
  · rw [hitems]
    intro c hc
    simp only [List.mem_cons, FmtItem.directive.injEq, reduceCtorEq, false_or, or_false,
      List.not_mem_nil] at hc
    rcases hc with rfl | rfl | rfl <;> decide
  · rw [hitems, FmtMatches]
    decide

end FeralKernel
