import Mathlib.Tactic.Common

set_option autoImplicit false

namespace Lemming.Shared

variable {σ δ : Type}

abbrev Rule (σ δ : Type) := σ → Option (σ × Option δ)

def runRules : List (Rule σ δ) → σ → σ × Option δ
  | [], s => (s, none)
  | rule :: rest, s =>
    match rule s with
    | none => runRules rest s
    | some (s', none) => runRules rest s'
    | some (s', some d) => (s', some d)

theorem runRules_append (rules rest : List (Rule σ δ)) (s : σ) :
    runRules (rules ++ rest) s =
      match runRules rules s with
      | (s', none) => runRules rest s'
      | (s', some d) => (s', some d) := by
  induction rules generalizing s with
  | nil => rfl
  | cons rule rules ih =>
    rw [List.cons_append, runRules, runRules]
    cases rule s with
    | none => exact ih s
    | some result =>
      obtain ⟨s', _ | d⟩ := result
      · exact ih s'
      · rfl

theorem runRules_idle {rules : List (Rule σ δ)} (idle : ∀ rule ∈ rules, ∀ s, rule s = none)
    (rest : List (Rule σ δ)) (s : σ) : runRules (rules ++ rest) s = runRules rest s := by
  induction rules with
  | nil => rfl
  | cons rule rules ih =>
    rw [List.cons_append, runRules, idle rule List.mem_cons_self s]
    exact ih fun other member => idle other (List.mem_cons_of_mem _ member)

theorem runRules_final {last : Rule σ δ} (final : ∀ s, ∃ s' d, last s = some (s', some d))
    (rules rest : List (Rule σ δ)) (s : σ) :
    runRules (rules ++ last :: rest) s = runRules (rules ++ [last]) s := by
  rw [runRules_append, runRules_append]
  split
  · next s' _ =>
    obtain ⟨s'', d, decides⟩ := final s'
    rw [runRules, runRules, decides]
  · rfl

end Lemming.Shared
