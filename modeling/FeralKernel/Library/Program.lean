import Mathlib.Data.Nat.Notation

/-!
# Programs over a state that may stop

A program takes a state and either returns a value with a new state or stops for
a reason.  Two assertions about one run are used throughout.  `Returns` is total
correctness: the program returns and its result satisfies the postcondition.
`Ensures` is partial correctness: if the program returns, its result does.  A
program is a function, so the two agree on every run that returns.

The loops are bounded.  `iterate` gives up after `fuel` rounds, and a caller
picks a bound beyond which the loop it models can only repeat itself.
`forCount` and `forRange` are the counted loops, whose counter never wraps.
-/

namespace Verif
namespace Program

/-- A program that may stop with an `ε`. -/
abbrev Prog (σ ε α : Type) : Type := StateT σ (Except ε) α

variable {σ ε α β ρ : Type}

/-- The run returns, and its value and final state satisfy `Q`. -/
def Returns (x : Prog σ ε α) (s : σ) (Q : α → σ → Prop) : Prop :=
  ∃ a t, x s = .ok (a, t) ∧ Q a t

/-- Whenever the run returns, its value and final state satisfy `Q`. -/
def Ensures (x : Prog σ ε α) (s : σ) (Q : α → σ → Prop) : Prop :=
  ∀ a t, x s = .ok (a, t) → Q a t

/-- The program that stops. -/
def stop (e : ε) : Prog σ ε α := fun _ => .error e

/-- An `if` with no `else`. -/
def onlyIf (c : Prop) [Decidable c] (x : Prog σ ε Unit) : Prog σ ε Unit :=
  if c then x else pure ()

/-! ## Total correctness -/

@[simp] theorem returns_pure {a : α} {s : σ} {Q : α → σ → Prop} :
    Returns (pure a : Prog σ ε α) s Q ↔ Q a s := by
  constructor
  · rintro ⟨b, t, h, hQ⟩
    cases h
    exact hQ
  · intro hQ
    exact ⟨a, s, rfl, hQ⟩

theorem not_returns_stop {e : ε} {s : σ} {Q : α → σ → Prop} :
    ¬ Returns (stop e : Prog σ ε α) s Q := by
  intro h
  obtain ⟨a, t, he, -⟩ := h
  cases he

theorem bind_apply (x : Prog σ ε α) (f : α → Prog σ ε β) (s : σ) :
    (x >>= f) s = match x s with
      | .ok (a, t) => f a t
      | .error e => .error e := by
  show StateT.bind x f s = _
  unfold StateT.bind
  cases x s <;> rfl

@[simp] theorem returns_bind {x : Prog σ ε α} {f : α → Prog σ ε β} {s : σ} {Q : β → σ → Prop} :
    Returns (x >>= f) s Q ↔ Returns x s (fun a t => Returns (f a) t Q) := by
  unfold Returns
  rw [bind_apply]
  cases h : x s with
  | error e => simp
  | ok r =>
    obtain ⟨a, t⟩ := r
    constructor
    · rintro ⟨b, u, hf, hQ⟩
      exact ⟨a, t, rfl, b, u, hf, hQ⟩
    · rintro ⟨a', t', he, b, u, hf, hQ⟩
      cases he
      exact ⟨b, u, hf, hQ⟩

@[simp] theorem returns_get {s : σ} {Q : σ → σ → Prop} :
    Returns (get : Prog σ ε σ) s Q ↔ Q s s := by
  constructor
  · rintro ⟨b, t, h, hQ⟩
    cases h
    exact hQ
  · intro hQ
    exact ⟨s, s, rfl, hQ⟩

/-- Looking at the state does not change it. -/
theorem get_bind (f : σ → Prog σ ε α) : (get >>= f) = fun s => f s s := rfl

theorem Returns.mono {x : Prog σ ε α} {s : σ} {P Q : α → σ → Prop} (h : Returns x s P)
    (hPQ : ∀ a t, P a t → Q a t) : Returns x s Q := by
  obtain ⟨a, t, he, hP⟩ := h
  exact ⟨a, t, he, hPQ a t hP⟩

theorem Returns.bind {x : Prog σ ε α} {f : α → Prog σ ε β} {s : σ} {P : α → σ → Prop}
    {Q : β → σ → Prop} (hx : Returns x s P) (hf : ∀ a t, P a t → Returns (f a) t Q) :
    Returns (x >>= f) s Q :=
  returns_bind.mpr (hx.mono hf)

/-- What a run returned satisfies every total postcondition of that run. -/
theorem Returns.of_eq {x : Prog σ ε α} {s t : σ} {a : α} {Q : α → σ → Prop}
    (h : Returns x s Q) (he : x s = .ok (a, t)) : Q a t := by
  obtain ⟨b, u, hb, hQ⟩ := h
  rw [he] at hb
  cases hb
  exact hQ

theorem Returns.and {x : Prog σ ε α} {s : σ} {P Q : α → σ → Prop} (hP : Returns x s P)
    (hQ : Returns x s Q) : Returns x s fun a t => P a t ∧ Q a t := by
  obtain ⟨a, t, he, h⟩ := hP
  exact ⟨a, t, he, h, hQ.of_eq he⟩

theorem Returns.forall {ι : Type} [Nonempty ι] {x : Prog σ ε α} {s : σ} {Q : ι → α → σ → Prop}
    (h : ∀ i, Returns x s (Q i)) : Returns x s fun a t => ∀ i, Q i a t := by
  obtain ⟨a, t, he, -⟩ := h Classical.ofNonempty
  exact ⟨a, t, he, fun i => (h i).of_eq he⟩

/-- What is returned is what the program returns. -/
theorem Returns.with_eq {x : Prog σ ε α} {s : σ} {Q : α → σ → Prop} (h : Returns x s Q) :
    Returns x s fun a t => x s = .ok (a, t) ∧ Q a t := by
  obtain ⟨a, t, he, hQ⟩ := h
  exact ⟨a, t, he, he, hQ⟩

theorem Returns.ensures {x : Prog σ ε α} {s : σ} {Q : α → σ → Prop} (h : Returns x s Q) :
    Ensures x s Q :=
  fun _ _ he => h.of_eq he

theorem returns_of_eq {x : Prog σ ε α} {s t : σ} {a : α} {Q : α → σ → Prop}
    (he : x s = .ok (a, t)) (hQ : Q a t) : Returns x s Q :=
  ⟨a, t, he, hQ⟩

theorem onlyIf_pos {c : Prop} [Decidable c] (h : c) (x : Prog σ ε Unit) : onlyIf c x = x :=
  if_pos h

theorem onlyIf_neg {c : Prop} [Decidable c] (h : ¬ c) (x : Prog σ ε Unit) :
    onlyIf c x = pure () := if_neg h

/-! ## Partial correctness -/

@[simp] theorem ensures_pure {a : α} {s : σ} {Q : α → σ → Prop} :
    Ensures (pure a : Prog σ ε α) s Q ↔ Q a s := by
  constructor
  · intro h
    exact h a s rfl
  · intro hQ b t h
    cases h
    exact hQ

@[simp] theorem ensures_stop {e : ε} {s : σ} {Q : α → σ → Prop} :
    Ensures (stop e : Prog σ ε α) s Q := by
  intro a t h
  cases h

theorem Ensures.mono {x : Prog σ ε α} {s : σ} {P Q : α → σ → Prop} (h : Ensures x s P)
    (hPQ : ∀ a t, P a t → Q a t) : Ensures x s Q :=
  fun a t he => hPQ a t (h a t he)

@[simp] theorem ensures_bind {x : Prog σ ε α} {f : α → Prog σ ε β} {s : σ} {Q : β → σ → Prop} :
    Ensures (x >>= f) s Q ↔ Ensures x s (fun a t => Ensures (f a) t Q) := by
  unfold Ensures
  rw [bind_apply]
  cases h : x s with
  | error e => simp
  | ok r =>
    obtain ⟨a, t⟩ := r
    constructor
    · intro hx a' t' he
      cases he
      exact hx
    · intro hx
      exact hx a t rfl

theorem Ensures.bind {x : Prog σ ε α} {f : α → Prog σ ε β} {s : σ} {P : α → σ → Prop}
    {Q : β → σ → Prop} (hx : Ensures x s P) (hf : ∀ a t, P a t → Ensures (f a) t Q) :
    Ensures (x >>= f) s Q :=
  ensures_bind.mpr (hx.mono hf)

/-- A run that returns has what every return has. -/
theorem Ensures.returns {x : Prog σ ε α} {s : σ} {P Q : α → σ → Prop} (h : Ensures x s Q)
    (hx : Returns x s P) : Returns x s Q := by
  obtain ⟨a, t, he, -⟩ := hx
  exact ⟨a, t, he, h a t he⟩

/-! ## Loops -/

/-- Repeat `step` until it leaves the loop, for at most `fuel` rounds.  `.inl r`
leaves the loop with `r` and `.inr b` goes round again with the locals `b`. -/
def iterate (hang : ε) (step : β → Prog σ ε (ρ ⊕ β)) : Nat → β → Prog σ ε ρ
  | 0, _ => stop hang
  | fuel + 1, b => do
    match ← step b with
    | .inl r => pure r
    | .inr b' => iterate hang step fuel b'

/-- The counted loop `for (i = start; i < start + n; ++i)` with locals `β`.  The
body leaves the loop early with `.inl r`. -/
def forCount (body : Nat → β → Prog σ ε (ρ ⊕ β)) : Nat → Nat → β → Prog σ ε (ρ ⊕ β)
  | 0, _, b => pure (.inr b)
  | n + 1, i, b => do
    match ← body i b with
    | .inl r => pure (.inl r)
    | .inr b' => forCount body n (i + 1) b'

/-- The counted loop whose body never leaves it. -/
def forRange (body : Nat → β → Prog σ ε β) : Nat → Nat → β → Prog σ ε β
  | 0, _, b => pure b
  | n + 1, i, b => do
    let b' ← body i b
    forRange body n (i + 1) b'

/-- A loop whose condition fails at once. -/
theorem returns_iterate_done {hang : ε} {step : β → Prog σ ε (ρ ⊕ β)} {b : β} {s : σ}
    {Q : ρ → σ → Prop} (r : ρ) (h : step b = pure (.inl r)) (fuel : Nat) (hQ : Q r s) :
    Returns (iterate hang step (fuel + 1) b) s Q := by
  rw [iterate, h, pure_bind, returns_pure]
  exact hQ

/-- `I k b s` says that the loop, with locals `b` in state `s`, is at most `k`
rounds from its end.  Each round either leaves with `Q` or comes closer. -/
theorem returns_iterate {hang : ε} {step : β → Prog σ ε (ρ ⊕ β)} {Q : ρ → σ → Prop}
    (I : Nat → β → σ → Prop)
    (hstep : ∀ k b s, I k b s → Returns (step b) s fun r t =>
      match r with
      | .inl a => Q a t
      | .inr b' => ∃ j, j < k ∧ I j b' t) :
    ∀ (fuel k : Nat) (b : β) (s : σ), k < fuel → I k b s →
      Returns (iterate hang step fuel b) s Q := by
  intro fuel
  induction fuel with
  | zero => intro k b s hk; omega
  | succ fuel ih =>
    intro k b s hk hI
    rw [iterate]
    apply (hstep k b s hI).bind
    intro r t hr
    cases r with
    | inl a => simpa using hr
    | inr b' =>
      obtain ⟨j, hj, hI'⟩ := hr
      exact ih j b' t (by omega) hI'

/-- A loop in which every round goes on never returns, whatever the bound. -/
theorem not_returns_iterate {hang : ε} {step : β → Prog σ ε (ρ ⊕ β)} {Q : ρ → σ → Prop}
    (I : β → σ → Prop)
    (hstep : ∀ b s, I b s → Returns (step b) s fun r t => ∃ b', r = .inr b' ∧ I b' t) :
    ∀ (fuel : Nat) (b : β) (s : σ), I b s → ¬ Returns (iterate hang step fuel b) s Q := by
  intro fuel
  induction fuel with
  | zero =>
    intro b s _
    exact not_returns_stop
  | succ fuel ih =>
    intro b s hI h
    rw [iterate, returns_bind] at h
    obtain ⟨r, t, hr, b', rfl, hI'⟩ := hstep b s hI
    exact ih b' t hI' (h.of_eq hr)

/-- The partial rule: an invariant kept by every round that goes on, and giving
`Q` in every round that leaves. -/
theorem ensures_iterate {hang : ε} {step : β → Prog σ ε (ρ ⊕ β)} {Q : ρ → σ → Prop}
    (I : β → σ → Prop)
    (hstep : ∀ b s, I b s → Ensures (step b) s fun r t =>
      match r with
      | .inl a => Q a t
      | .inr b' => I b' t) :
    ∀ (fuel : Nat) (b : β) (s : σ), I b s → Ensures (iterate hang step fuel b) s Q := by
  intro fuel
  induction fuel with
  | zero => intro b s _; exact ensures_stop
  | succ fuel ih =>
    intro b s hI
    rw [iterate]
    refine (hstep b s hI).bind ?_
    intro r t hr
    cases r with
    | inl a => exact ensures_pure.mpr hr
    | inr b' => exact ih b' t hr

/-! ## The head of a loop -/

/-- The loop that starts with `start` in `s₀` comes to its head with `b` in `s`. -/
inductive Rounds (step : β → Prog σ ε (ρ ⊕ β)) (start : β) (s₀ : σ) : β → σ → Prop where
  | first : Rounds step start s₀ start s₀
  | next {b b' : β} {s t : σ} : Rounds step start s₀ b s → step b s = .ok (.inr b', t) →
      Rounds step start s₀ b' t

section Rounds

variable {step : β → Prog σ ε (ρ ⊕ β)} {start : β} {s₀ : σ}

theorem Rounds.invariant (I : β → σ → Prop) (hstart : I start s₀)
    (hstep : ∀ b s, I b s → Ensures (step b) s fun r t => ∀ b', r = .inr b' → I b' t)
    {b : β} {s : σ} (h : Rounds step start s₀ b s) : I b s := by
  induction h with
  | first => exact hstart
  | next _ he ih => exact hstep _ _ ih _ _ he _ rfl

/-- One more round. -/
theorem Rounds.advance {b b' : β} {s : σ} {P : σ → Prop} (h : Rounds step start s₀ b s)
    (hstep : Returns (step b) s fun r t => r = .inr b' ∧ P t) :
    ∃ t, Rounds step start s₀ b' t ∧ P t := by
  obtain ⟨r, t, he, rfl, hP⟩ := hstep
  exact ⟨t, h.next he, hP⟩

/-- In a loop that returns, every round does. -/
theorem Rounds.returns {hang : ε} {fuel : Nat} {Q : ρ → σ → Prop} {b : β} {s : σ}
    (h : Rounds step start s₀ b s) (hloop : Returns (iterate hang step fuel start) s₀ Q) :
    Returns (step b) s fun _ _ => True := by
  -- what is left of the loop returns as well
  have hrest : ∃ fuel, Returns (iterate hang step fuel b) s Q := by
    induction h with
    | first => exact ⟨fuel, hloop⟩
    | next _ he ih =>
      obtain ⟨fuel, hret⟩ := ih
      cases fuel with
      | zero => exact absurd hret not_returns_stop
      | succ fuel =>
        rw [iterate, returns_bind] at hret
        exact ⟨fuel, hret.of_eq he⟩
  obtain ⟨fuel, hret⟩ := hrest
  cases fuel with
  | zero => exact absurd hret not_returns_stop
  | succ fuel =>
    rw [iterate, returns_bind] at hret
    exact hret.mono fun _ _ _ => trivial

/-- A loop that returns leaves from a round at its head. -/
theorem Rounds.last {hang : ε} {r : ρ} {t : σ} : ∀ {fuel : Nat} {b : β} {s : σ},
    Rounds step start s₀ b s → iterate hang step fuel b s = .ok (r, t) →
      ∃ b' s', Rounds step start s₀ b' s' ∧ step b' s' = .ok (.inl r, t) := by
  intro fuel
  induction fuel with
  | zero =>
    intro b s _ he
    cases he
  | succ fuel ih =>
    intro b s h he
    rw [iterate, bind_apply] at he
    cases hb : step b s with
    | error e =>
      rw [hb] at he
      cases he
    | ok pair =>
      obtain ⟨out, u⟩ := pair
      rw [hb] at he
      cases out with
      | inl a =>
        cases he
        exact ⟨b, s, h, hb⟩
      | inr b' => exact ih (h.next hb) he

end Rounds

/-- The loop from `b` in `s` comes to its head with each of `heads`, one after the
other, and leaves from the last with `r` in `t`. -/
inductive Passes (step : β → Prog σ ε (ρ ⊕ β)) : β → σ → List β → ρ → σ → Prop where
  | leave {b : β} {s t : σ} {r : ρ} : step b s = .ok (.inl r, t) → Passes step b s [b] r t
  | next {b b' : β} {s u t : σ} {heads : List β} {r : ρ} : step b s = .ok (.inr b', u) →
      Passes step b' u heads r t → Passes step b s (b :: heads) r t

/-- A loop whose bound is no smaller than the number of its rounds returns. -/
theorem Passes.iterate {step : β → Prog σ ε (ρ ⊕ β)} {hang : ε} {b : β} {s t : σ}
    {heads : List β} {r : ρ} (h : Passes step b s heads r t) {fuel : Nat}
    (hfuel : heads.length ≤ fuel) : iterate hang step fuel b s = .ok (r, t) := by
  induction h generalizing fuel with
  | leave he =>
    obtain ⟨fuel, rfl⟩ : ∃ n, fuel = n + 1 := ⟨fuel - 1, by simp at hfuel; omega⟩
    rw [Program.iterate, bind_apply, he]
    rfl
  | next he _ ih =>
    obtain ⟨fuel, rfl⟩ : ∃ n, fuel = n + 1 := ⟨fuel - 1, by simp at hfuel; omega⟩
    rw [Program.iterate, bind_apply, he]
    exact ih (by simpa using hfuel)

/-! ## Counted loops -/

/-- The counted loop: an invariant indexed by the counter, kept by every round
that goes on. -/
theorem returns_forCount {body : Nat → β → Prog σ ε (ρ ⊕ β)} {Q : ρ ⊕ β → σ → Prop}
    (I : Nat → β → σ → Prop) (stopAt : Nat)
    (hbody : ∀ i b s, i < stopAt → I i b s → Returns (body i b) s fun r t =>
      match r with
      | .inl a => Q (.inl a) t
      | .inr b' => I (i + 1) b' t)
    (hend : ∀ b s, I stopAt b s → Q (.inr b) s) :
    ∀ (n i : Nat) (b : β) (s : σ), i + n = stopAt → I i b s →
      Returns (forCount body n i b) s Q := by
  intro n
  induction n with
  | zero =>
    intro i b s hi hI
    rw [forCount, returns_pure]
    have he : i = stopAt := by omega
    exact hend b s (he ▸ hI)
  | succ n ih =>
    intro i b s hi hI
    rw [forCount]
    apply (hbody i b s (by omega) hI).bind
    intro r t hr
    cases r with
    | inl a => simpa using hr
    | inr b' => exact ih (i + 1) b' t (by omega) hr

/-- A counted loop that tests one condition each round and leaves with `r` at the
first round where it fails.  The rounds keep `I`, which the tests may use. -/
theorem returns_forCount_test {body : Nat → Unit → Prog σ ε (ρ ⊕ Unit)} {r : ρ} (I : σ → Prop)
    (P : Nat → Prop)
    (hbody : ∀ i s, I s → Returns (body i ()) s fun b t =>
      I t ∧ (P i ∧ b = .inr () ∨ ¬ P i ∧ b = .inl r)) :
    ∀ (n i : Nat) (s : σ), I s → Returns (forCount body n i ()) s fun b t =>
      I t ∧ ((∀ j, i ≤ j → j < i + n → P j) ∧ b = .inr () ∨
        (¬ ∀ j, i ≤ j → j < i + n → P j) ∧ b = .inl r) := by
  intro n
  induction n with
  | zero =>
    intro i s hI
    rw [forCount, returns_pure]
    exact ⟨hI, Or.inl ⟨fun j h1 h2 => absurd h2 (by omega), rfl⟩⟩
  | succ n ih =>
    intro i s hI
    rw [forCount]
    apply (hbody i s hI).bind
    intro b t hb
    obtain ⟨hI', ⟨hP, rfl⟩ | ⟨hP, rfl⟩⟩ := hb
    · apply (ih (i + 1) t hI').mono
      intro b u hu
      obtain ⟨hI'', hall⟩ := hu
      have hsplit : (∀ j, i ≤ j → j < i + (n + 1) → P j) ↔
          ∀ j, i + 1 ≤ j → j < i + 1 + n → P j := by
        constructor
        · intro h j h1 h2
          exact h j (by omega) (by omega)
        · intro h j h1 h2
          by_cases hj : j = i
          · rw [hj]
            exact hP
          · exact h j (by omega) (by omega)
      rw [hsplit]
      exact ⟨hI'', hall⟩
    · rw [returns_pure]
      exact ⟨hI', Or.inr ⟨fun h => hP (h i (by omega) (by omega)), rfl⟩⟩

theorem returns_forCount_check {body : Nat → Unit → Prog σ ε (ρ ⊕ Unit)} {r : ρ} (I : σ → Prop)
    (P : Nat → Prop)
    (hbody : ∀ i s, I s → Returns (body i ()) s fun b t =>
      I t ∧ (P i ∧ b = .inr () ∨ ¬ P i ∧ b = .inl r)) (n : Nat) {s : σ} (hs : I s) :
    Returns (forCount body n 0 ()) s fun b t =>
      I t ∧ ((∀ i, i < n → P i) ∧ b = .inr () ∨ (¬ ∀ i, i < n → P i) ∧ b = .inl r) := by
  have hall : (∀ i, 0 ≤ i → i < 0 + n → P i) ↔ ∀ i, i < n → P i := by
    rw [Nat.zero_add]
    exact ⟨fun h i hi => h i (Nat.zero_le i) hi, fun h i _ hi => h i hi⟩
  have hloop := returns_forCount_test I P hbody n 0 s hs
  rw [hall] at hloop
  exact hloop

/-- A counted loop that searches: a round leaves with a value `r` that `hit i r` allows, or
goes on where `miss i` holds.  What is found is the first hit.  `I i` holds when `i` rounds
have been made. -/
theorem returns_forCount_first {body : Nat → Unit → Prog σ ε (ρ ⊕ Unit)} (I : Nat → σ → Prop)
    (hit : Nat → ρ → Prop) (miss : Nat → Prop)
    (hbody : ∀ i s, I i s → Returns (body i ()) s fun b t =>
      I (i + 1) t ∧ Sum.elim (hit i) (fun _ => miss i) b) :
    ∀ (n i : Nat) (s : σ), I i s → Returns (forCount body n i ()) s fun b t =>
      Sum.elim (fun r => ∃ j, i ≤ j ∧ j < i + n ∧ hit j r ∧ (∀ k, i ≤ k → k < j → miss k) ∧
          I (j + 1) t)
        (fun _ => (∀ k, i ≤ k → k < i + n → miss k) ∧ I (i + n) t) b := by
  intro n
  induction n with
  | zero =>
    intro i s hI
    rw [forCount, returns_pure]
    exact ⟨fun k h1 h2 => absurd h2 (by omega), hI⟩
  | succ n ih =>
    intro i s hI
    rw [forCount]
    apply (hbody i s hI).bind
    intro b t hb
    obtain ⟨hI', hb⟩ := hb
    cases b with
    | inl r =>
      rw [returns_pure]
      exact ⟨i, Nat.le_refl i, by omega, hb, fun k h1 h2 => absurd h2 (by omega), hI'⟩
    | inr _ =>
      have hmiss : ∀ (m k : Nat), i ≤ k → (i + 1 ≤ k → k < m → miss k) → k < m → miss k := by
        intro m k h1 hlater h2
        by_cases hk : k = i
        · rw [hk]
          exact hb
        · exact hlater (by omega) h2
      apply (ih (i + 1) t hI').mono
      intro c u hc
      cases c with
      | inl r =>
        obtain ⟨j, h1, h2, hhit, hbefore, hJ⟩ := hc
        exact ⟨j, by omega, by omega, hhit, fun k hk => hmiss j k hk (hbefore k), hJ⟩
      | inr _ =>
        obtain ⟨hafter, hJ⟩ := hc
        rw [Nat.add_right_comm] at hJ
        refine ⟨fun k hk hlt => ?_, hJ⟩
        exact hmiss (i + (n + 1)) k hk (fun h1 _ => hafter k h1 (by omega)) hlt

theorem returns_forRange {body : Nat → β → Prog σ ε β} (I : Nat → β → σ → Prop) (stopAt : Nat)
    (hbody : ∀ i b s, i < stopAt → I i b s → Returns (body i b) s fun b' t => I (i + 1) b' t) :
    ∀ (n i : Nat) (b : β) (s : σ), i + n = stopAt → I i b s →
      Returns (forRange body n i b) s (I stopAt) := by
  intro n
  induction n with
  | zero =>
    intro i b s hi hI
    rw [forRange, returns_pure]
    have he : i = stopAt := by omega
    exact he ▸ hI
  | succ n ih =>
    intro i b s hi hI
    rw [forRange]
    apply (hbody i b s (by omega) hI).bind
    intro b' t hI'
    exact ih (i + 1) b' t (by omega) hI'

theorem ensures_forRange {body : Nat → β → Prog σ ε β} (I : β → σ → Prop)
    (hbody : ∀ i b s, I b s → Ensures (body i b) s I) :
    ∀ (n i : Nat) (b : β) (s : σ), I b s → Ensures (forRange body n i b) s I := by
  intro n
  induction n with
  | zero =>
    intro i b s hI
    rw [forRange, ensures_pure]
    exact hI
  | succ n ih =>
    intro i b s hI
    rw [forRange]
    refine (hbody i b s hI).bind ?_
    intro b' t hI'
    exact ih (i + 1) b' t hI'

end Program
end Verif
