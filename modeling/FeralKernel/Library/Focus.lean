import FeralKernel.Library.Program

/-!
# Programs on a part of the state

A program over a small state runs on a larger one that has the small state as a part.  It
returns there what it returned on the part, and what lies outside the part stays as it is.
-/

namespace Verif
namespace Program

variable {σ τ ε α : Type}

/-- States of type `τ` as a part of states of type `σ`. -/
structure Part (σ τ : Type) where
  get : σ → τ
  set : σ → τ → σ
  get_set : ∀ s v, get (set s v) = v
  set_get : ∀ s, set s (get s) = s
  set_set : ∀ s v w, set (set s v) w = set s w

/-- The program that runs on the part. -/
def focus (l : Part σ τ) (x : Prog τ ε α) : Prog σ ε α := fun s =>
  match x (l.get s) with
  | .ok (a, v) => .ok (a, l.set s v)
  | .error e => .error e

section Focus

variable {l : Part σ τ} {s : σ}

theorem focus_apply_ok {x : Prog τ ε α} {a : α} {v : τ} (h : x (l.get s) = .ok (a, v)) :
    focus l x s = .ok (a, l.set s v) := by
  rw [focus, h]

@[simp] theorem returns_focus {x : Prog τ ε α} {Q : α → σ → Prop} :
    Returns (focus l x) s Q ↔ Returns x (l.get s) fun a v => Q a (l.set s v) := by
  constructor
  · intro h
    obtain ⟨a, t, he, hQ⟩ := h
    rw [focus] at he
    cases hx : x (l.get s) with
    | error e =>
      rw [hx] at he
      cases he
    | ok r =>
      obtain ⟨b, v⟩ := r
      rw [hx] at he
      cases he
      exact ⟨a, v, hx, hQ⟩
  · intro h
    obtain ⟨a, v, hx, hQ⟩ := h
    exact ⟨a, l.set s v, focus_apply_ok hx, hQ⟩

end Focus

end Program
end Verif
