import Mathlib.Data.Nat.Notation
import Mathlib.Order.Defs.LinearOrder

/-!
# Loops that may not end

The body of a loop is a partial function on its state: `none` says that the
loop is left.  `run` performs a bounded number of rounds, `Finishes` says that
some number of rounds is enough.  A loop finishes if and only if it does after
its first round, and it does not if an invariant keeps its body entered.
-/

universe u

namespace WhileLoop

variable {σ : Type u} (body : σ → Option σ)

/-- At most `fuel` rounds; `none` if the loop would go on. -/
def run : ℕ → σ → Option σ
  | 0, x =>
      match body x with
      | none => some x
      | some _ => none
  | fuel + 1, x =>
      match body x with
      | none => some x
      | some y => run fuel y

/-- The loop is left after finitely many rounds. -/
def Finishes (x : σ) : Prop :=
  ∃ fuel y, run body fuel x = some y

variable {body} {x y : σ}

theorem run_of_none (fuel : ℕ) (h : body x = none) :
    run body fuel x = some x := by
  cases fuel <;> rw [run, h]

theorem run_succ_of_some {fuel : ℕ} (h : body x = some y) :
    run body (fuel + 1) x = run body fuel y := by
  rw [run, h]

/-- A rule for loops that end: the relation holds where the body is not
entered, and a round in front of a related run keeps it. -/
theorem run_induction {R : σ → σ → Prop} {fuel : ℕ} {x y : σ}
    (hdone : ∀ x, body x = none → R x x)
    (hround : ∀ x y z, body x = some y → R y z → R x z)
    (h : run body fuel x = some y) : R x y := by
  induction fuel generalizing x with
  | zero =>
      rw [run] at h
      cases hx : body x with
      | none =>
          rw [hx] at h
          cases h
          exact hdone _ hx
      | some z =>
          rw [hx] at h
          cases h
  | succ fuel ih =>
      cases hx : body x with
      | none =>
          rw [run_of_none _ hx] at h
          cases h
          exact hdone _ hx
      | some z =>
          rw [run_succ_of_some hx] at h
          exact hround x z y hx (ih h)

/-- A loop ends where its body is not entered any more. -/
theorem body_of_run {fuel : ℕ} (h : run body fuel x = some y) :
    body y = none :=
  run_induction (R := fun _ y => body y = none) (fun _ hx => hx)
    (fun _ _ _ _ hy => hy) h

/-- More rounds than needed change nothing. -/
theorem run_mono {fuel fuel' : ℕ} (hle : fuel ≤ fuel')
    (h : run body fuel x = some y) : run body fuel' x = some y := by
  induction fuel' generalizing fuel x with
  | zero =>
      cases Nat.le_zero.mp hle
      exact h
  | succ fuel' ih =>
      cases hx : body x with
      | none =>
          rw [run_of_none _ hx] at h ⊢
          exact h
      | some z =>
          rw [run_succ_of_some hx]
          cases fuel with
          | zero =>
              rw [run, hx] at h
              cases h
          | succ fuel =>
              rw [run_succ_of_some hx] at h
              exact ih (Nat.le_of_succ_le_succ hle) h

theorem finishes_of_none (h : body x = none) : Finishes body x :=
  ⟨0, x, run_of_none 0 h⟩

/-- A loop finishes if and only if it does after its first round. -/
theorem finishes_iff_of_some (h : body x = some y) :
    Finishes body x ↔ Finishes body y := by
  constructor
  · rintro ⟨fuel, z, hz⟩
    cases fuel with
    | zero =>
        rw [run, h] at hz
        cases hz
    | succ fuel => exact ⟨fuel, z, run_succ_of_some h ▸ hz⟩
  · rintro ⟨fuel, z, hz⟩
    exact ⟨fuel + 1, z, (run_succ_of_some h).trans hz⟩

/-- If an invariant keeps the body entered, the loop does not finish. -/
theorem not_finishes_of_invariant {I : σ → Prop}
    (hI : ∀ x, I x → ∃ y, body x = some y ∧ I y) (hx : I x) :
    ¬ Finishes body x := by
  rintro ⟨fuel, z, hz⟩
  induction fuel generalizing x with
  | zero =>
      obtain ⟨y, hy, -⟩ := hI x hx
      rw [run, hy] at hz
      cases hz
  | succ fuel ih =>
      obtain ⟨y, hy, hIy⟩ := hI x hx
      rw [run_succ_of_some hy] at hz
      exact ih hIy hz

end WhileLoop
