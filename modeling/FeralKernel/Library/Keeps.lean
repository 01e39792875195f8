import FeralKernel.Library.Program

/-!
# What a program leaves alone

`Keeps f x` says that whenever `x` returns, `f` of the state is what it was.  A program keeps
what its parts keep, however often its loops go round.
-/

namespace Verif
namespace Program

variable {σ ε α β ρ γ : Type}

/-- Whenever `x` returns, `f` of the state is what it was. -/
def Keeps (f : σ → γ) (x : Prog σ ε α) : Prop := ∀ s, Ensures x s fun _ t => f t = f s

namespace Keeps

variable {f : σ → γ}

theorem pure (a : α) : Keeps f (Pure.pure a : Prog σ ε α) := fun _ => ensures_pure.mpr rfl

theorem stop (e : ε) : Keeps f (Program.stop e : Prog σ ε α) := fun _ => ensures_stop

theorem bind {x : Prog σ ε α} {g : α → Prog σ ε β} (hx : Keeps f x) (hg : ∀ a, Keeps f (g a)) :
    Keeps f (x >>= g) := by
  intro s
  refine (hx s).bind ?_
  intro a t ht
  refine (hg a t).mono ?_
  intro _ u hu
  rw [hu, ht]

theorem ite {c : Prop} [Decidable c] {x y : Prog σ ε α} (hx : Keeps f x) (hy : Keeps f y) :
    Keeps f (if c then x else y) := by
  by_cases h : c
  · rw [if_pos h]
    exact hx
  · rw [if_neg h]
    exact hy

theorem onlyIf {c : Prop} [Decidable c] {x : Prog σ ε Unit} (hx : Keeps f x) :
    Keeps f (Program.onlyIf c x) := ite hx (pure ())

theorem iterate {hang : ε} {step : β → Prog σ ε (ρ ⊕ β)} (h : ∀ b, Keeps f (step b)) (fuel : Nat)
    (b : β) : Keeps f (Program.iterate hang step fuel b) := by
  intro s
  refine ensures_iterate (fun _ t => f t = f s) ?_ fuel b s rfl
  intro b t ht
  refine (h b t).mono ?_
  intro r u hu
  cases r with
  | inl a => exact hu.trans ht
  | inr b' => exact hu.trans ht

theorem forRange {body : Nat → β → Prog σ ε β} (h : ∀ i b, Keeps f (body i b)) (n i : Nat)
    (b : β) : Keeps f (Program.forRange body n i b) := by
  intro s
  refine ensures_forRange (fun _ t => f t = f s) ?_ n i b s rfl
  intro i b t ht
  exact (h i b t).mono fun _ u hu => hu.trans ht

/-- A program that always returns, and keeps `f`. -/
theorem of_returns {x : Prog σ ε α} (h : ∀ s, Returns x s fun _ t => f t = f s) : Keeps f x :=
  fun s => (h s).ensures

theorem returns {x : Prog σ ε α} {s : σ} {Q : α → σ → Prop} (h : Keeps f x)
    (hx : Returns x s Q) : Returns x s fun a t => Q a t ∧ f t = f s :=
  hx.and ((h s).returns hx)

end Keeps

end Program
end Verif
