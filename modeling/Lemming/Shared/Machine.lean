import Lemming.Shared.Outcome

set_option autoImplicit false

namespace Lemming.Shared.Machine

variable {C R : Type}

def run (step : C → Outcome (C ⊕ R)) : Nat → C → Outcome R
  | 0, _ => .diverge
  | fuel + 1, c =>
    step c >>= fun
      | .inl c => run step fuel c
      | .inr result => .ok result

inductive Reaches (step : C → Outcome (C ⊕ R)) (c : C) : C → Prop where
  | start : Reaches step c c
  | pass {d e : C} (before : Reaches step c d) (goes : step d = .ok (.inl e)) : Reaches step c e

def after (step : C → Outcome (C ⊕ R)) : Nat → C → Option C
  | 0, c => some c
  | passes + 1, c =>
    match step c with
    | .ok (.inl d) => after step passes d
    | _ => none

section Rules

variable {step : C → Outcome (C ⊕ R)} {c d : C}

theorem run_pass (goes : step c = .ok (.inl d)) (fuel : Nat) :
    run step (fuel + 1) c = run step fuel d := by
  rw [run, goes]
  rfl

theorem run_end {result : R} (ends : step c = .ok (.inr result)) (fuel : Nat) :
    run step (fuel + 1) c = .ok result := by
  rw [run, ends]
  rfl

theorem run_more {fuel more : Nat} {result : R} (ended : run step fuel c = .ok result)
    (le : fuel ≤ more) : run step more c = .ok result := by
  induction fuel generalizing c more with
  | zero => cases ended
  | succ fuel ih =>
    obtain ⟨more, rfl⟩ : ∃ m, more = m + 1 := ⟨more - 1, by omega⟩
    rw [run] at ended ⊢
    cases goes : step c with
    | ok next =>
      rw [goes] at ended
      cases next with
      | inl e => exact ih ended (by omega)
      | inr result' => exact ended
    | _ => rw [goes] at ended; cases ended

theorem Reaches.trans {e : C} (first : Reaches step c d) (second : Reaches step d e) :
    Reaches step c e := by
  induction second with
  | start => exact first
  | pass _ goes ih => exact .pass ih goes

theorem Reaches.first {e : C} (goes : step c = .ok (.inl d)) (onward : Reaches step d e) :
    Reaches step c e :=
  (Reaches.pass .start goes).trans onward

theorem reaches_after {passes : Nat} (isAfter : after step passes c = some d) :
    Reaches step c d := by
  induction passes generalizing c with
  | zero =>
    cases isAfter
    exact .start
  | succ passes ih =>
    rw [after] at isAfter
    split at isAfter
    · next e goes => exact .first goes (ih isAfter)
    · cases isAfter

theorem Reaches.run_eq (reaches : Reaches step c d) :
    ∃ passes, ∀ fuel, run step (fuel + passes) c = run step fuel d := by
  induction reaches with
  | start => exact ⟨0, fun _ => rfl⟩
  | pass _ goes ih =>
    obtain ⟨passes, same⟩ := ih
    refine ⟨passes + 1, fun fuel => ?_⟩
    rw [← run_pass goes fuel, ← same (fuel + 1)]
    congr 1
    omega

variable (Inv : C → Prop)

theorem Reaches.invariant (reaches : Reaches step c d) (initial : Inv c)
    (kept : ∀ c d, Inv c → step c = .ok (.inl d) → Inv d) : Inv d := by
  induction reaches with
  | start => exact initial
  | pass _ goes ih => exact kept _ _ ih goes

variable {Post : R → Prop}

-- A loop ends with a result that meets `Post` if every pass keeps an invariant and goes down a well-
-- founded relation, or ends it with such a result.
theorem run_yields {below : C → C → Prop} (wf : WellFounded below)
    (pass : ∀ c, Inv c → (step c).Yields fun
      | .inl d => Inv d ∧ below d c
      | .inr result => Post result)
    (initial : Inv c) : ∃ fuel, (run step fuel c).Yields Post := by
  induction c using wf.induction with
  | _ c ih =>
  obtain ⟨next, goes, holds⟩ := pass c initial
  cases next with
  | inl d =>
    obtain ⟨fuel, yields⟩ := ih d holds.2 holds.1
    refine ⟨fuel + 1, ?_⟩
    rwa [run_pass goes]
  | inr result => exact ⟨1, result, run_end goes 0, holds⟩

theorem run_yields_within (measure : C → Nat)
    (pass : ∀ c, Inv c → (step c).Yields fun
      | .inl d => Inv d ∧ measure d < measure c
      | .inr result => Post result)
    (initial : Inv c) {fuel : Nat} (enough : measure c < fuel) : (run step fuel c).Yields Post := by
  induction fuel generalizing c with
  | zero => omega
  | succ fuel ih =>
    obtain ⟨next, goes, holds⟩ := pass c initial
    cases next with
    | inl d =>
      rw [run_pass goes]
      exact ih holds.1 (by have := holds.2; omega)
    | inr result => exact ⟨result, run_end goes fuel, holds⟩

theorem run_whenever
    (pass : ∀ c, Inv c → (step c).Whenever fun
      | .inl d => Inv d
      | .inr result => Post result)
    (initial : Inv c) (fuel : Nat) : (run step fuel c).Whenever Post := by
  induction fuel generalizing c with
  | zero => exact nofun
  | succ fuel ih =>
    rw [run]
    refine Outcome.Whenever.bind (pass c initial) fun next holds => ?_
    cases next with
    | inl d => exact ih holds
    | inr result => exact .pure holds

theorem run_diverges
    (pass : ∀ c, Inv c → ∃ d, step c = .ok (.inl d) ∧ Inv d) (initial : Inv c) (fuel : Nat) :
    run step fuel c = .diverge := by
  induction fuel generalizing c with
  | zero => rfl
  | succ fuel ih =>
    obtain ⟨d, goes, holds⟩ := pass c initial
    rw [run_pass goes]
    exact ih holds

end Rules


end Lemming.Shared.Machine
