/-!
# `while` loops

One round of a loop gives the state of the next round or leaves the loop with a result.
-/

namespace Loop

variable {σ ρ : Type}

/-- Run from `s`, the loop stops with the result. -/
inductive Returns (round : σ → σ ⊕ ρ) : σ → ρ → Prop where
  | leave {s : σ} {r : ρ} (h : round s = .inr r) : Returns round s r
  | next {s s' : σ} {r : ρ} (h : round s = .inl s') (hrest : Returns round s' r) :
      Returns round s r

/-- A loop has one result. -/
theorem Returns.unique {round : σ → σ ⊕ ρ} {s : σ} {r r' : ρ} (h : Returns round s r)
    (h' : Returns round s r') : r = r' := by
  induction h with
  | leave hround =>
    cases h' with
    | leave hround' =>
      rw [hround] at hround'
      exact Sum.inr.inj hround'
    | next hround' =>
      rw [hround] at hround'
      cases hround'
  | next hround _ ih =>
    cases h' with
    | leave hround' =>
      rw [hround] at hround'
      cases hround'
    | next hround' hrest =>
      rw [hround] at hround'
      obtain rfl := Sum.inl.inj hround'
      exact ih hrest

/-- A measure that every round lowers bounds the rounds: a run on a budget above it is the loop's. -/
theorem Returns.of_budget {round : σ → σ ⊕ ρ} {f : Nat → σ → ρ} {m : σ → Nat}
    (hleave : ∀ n s r, round s = .inr r → f (n + 1) s = r)
    (hnext : ∀ n s s', round s = .inl s' → f (n + 1) s = f n s')
    (hlower : ∀ s s', round s = .inl s' → m s' < m s) {budget : Nat} {s : σ}
    (h : m s < budget) : Returns round s (f budget s) := by
  induction budget generalizing s with
  | zero => omega
  | succ n ih =>
    cases hround : round s with
    | inr r =>
      rw [hleave n s r hround]
      exact .leave hround
    | inl s' =>
      have hs' := hlower s s' hround
      rw [hnext n s s' hround]
      exact .next hround (ih (by omega))

end Loop
