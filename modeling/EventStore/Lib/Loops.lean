import Mathlib.Order.Basic

/-!
Loops whose body may panic. One turn panics, returns, or goes on from another state; a loop takes
turns as long as its fuel lasts. Both rules have an invariant and a variant: one for a loop that
returns, one for a loop that panics.
-/

inductive Turn (σ α : Type) where
  | panicked
  | returned (value : α)
  | goesOn (state : σ)

inductive Looped (α : Type) where
  | panicked
  | returned (value : α)
  | running
deriving DecidableEq

def Looped.map {α β : Type} (f : α → β) : Looped α → Looped β
  | .panicked => .panicked
  | .returned value => .returned (f value)
  | .running => .running

theorem Looped.map_eq_returned {α β : Type} {f : α → β} {x : Looped α} {b : β} :
    x.map f = .returned b ↔ ∃ a, x = .returned a ∧ f a = b := by
  cases x <;> simp [Looped.map]

def Looped.checked {α β : Type} : Option α → (α → Looped β) → Looped β
  | none, _ => .panicked
  | some a, next => next a

namespace Loop

variable {σ α : Type}

def run (body : σ → Turn σ α) : Nat → σ → Looped α
  | 0, _ => .running
  | fuel + 1, s =>
    match body s with
    | .panicked => .panicked
    | .returned value => .returned value
    | .goesOn next => run body fuel next

/-- What a turn may do: go on with the invariant and a smaller variant, or return what is asked
for. -/
def Progress (inv : σ → Prop) (variant : σ → Nat) (post : α → Prop) (s : σ) : Turn σ α → Prop
  | .panicked => False
  | .returned value => post value
  | .goesOn next => inv next ∧ variant next < variant s

theorem run_returned {body : σ → Turn σ α} {inv : σ → Prop} {variant : σ → Nat} {post : α → Prop}
    (hbody : ∀ s, inv s → Progress inv variant post s (body s)) {fuel : Nat} {s : σ} (hs : inv s)
    (hfuel : variant s < fuel) : ∃ value, run body fuel s = .returned value ∧ post value := by
  induction fuel generalizing s with
  | zero => exact absurd hfuel (Nat.not_lt_zero _)
  | succ fuel ih =>
    have hturn := hbody s hs
    unfold run
    cases hcase : body s with
    | panicked =>
      rw [hcase] at hturn
      exact hturn.elim
    | returned value =>
      rw [hcase] at hturn
      exact ⟨value, rfl, hturn⟩
    | goesOn next =>
      rw [hcase] at hturn
      exact ih hturn.1 (by have := hturn.2; omega)

theorem run_panicked {body : σ → Turn σ α} (inv : σ → Prop) (variant : σ → Nat)
    (hbody : ∀ s, inv s → body s = .panicked ∨
      ∃ next, body s = .goesOn next ∧ inv next ∧ variant next < variant s)
    {fuel : Nat} {s : σ} (hs : inv s) (hfuel : variant s < fuel) :
    run body fuel s = .panicked := by
  induction fuel generalizing s with
  | zero => exact absurd hfuel (Nat.not_lt_zero _)
  | succ fuel ih =>
    unfold run
    rcases hbody s hs with hpanic | ⟨next, hnext, hinv, hvariant⟩
    · rw [hpanic]
    · rw [hnext]
      exact ih hinv (by omega)

end Loop
