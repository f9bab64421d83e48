import Mathlib.Data.List.Perm.Subperm

set_option autoImplicit false

namespace Lemming.Shared.CallGraph

variable {α : Type} {calls : α → α → Prop}

def Acyclic (calls : α → α → Prop) : Prop :=
  ∀ x, ¬ Relation.TransGen calls x x

section Returning

variable {returns : Nat → α → Prop}

section

variable (acyclic : Acyclic calls) {targets : List α} (inside : ∀ x y, calls x y → y ∈ targets)
  (step : ∀ depth x, (∀ y, calls x y → returns depth y) → returns (depth + 1) x)
include acyclic inside step

theorem returns_with_stack (depth : Nat) (x : α) (stack : List α) (distinct : stack.Nodup) (known : stack ⊆ targets)
    (leads : ∀ y ∈ stack, Relation.ReflTransGen calls y x)
    (deep : targets.length < depth + stack.length) : returns depth x := by
  induction depth generalizing x stack with
  | zero =>
    have short : stack.length ≤ targets.length :=
      (List.subperm_of_subset distinct known).length_le
    omega
  | succ depth ih =>
    apply step
    intro y calling
    -- A callee that is on the stack would close a cycle.
    have fresh : y ∉ stack := fun member =>
      acyclic y (Relation.TransGen.tail' (leads y member) calling)
    apply ih y (y :: stack)
    · exact List.nodup_cons.mpr ⟨fresh, distinct⟩
    · exact List.cons_subset.mpr ⟨inside x y calling, known⟩
    · intro z member
      rcases List.mem_cons.mp member with rfl | member
      · exact .refl
      · exact (leads z member).tail calling
    · rw [List.length_cons]
      omega

theorem returns_of_acyclic {depth : Nat} (deep : targets.length < depth) (x : α) : returns depth x :=
  returns_with_stack acyclic inside step depth x [] .nil (List.nil_subset _) (by simp) deep

end

theorem not_returns_of_cycle (never : ∀ x, ¬ returns 0 x)
    (waits : ∀ depth x y, returns (depth + 1) x → calls x y → returns depth y) (depth : Nat)
    {x : α} (cycle : Relation.TransGen calls x x) : ¬ returns depth x := by
  induction depth generalizing x with
  | zero => exact never x
  | succ depth ih =>
    intro returned
    obtain ⟨y, first, rest⟩ := Relation.TransGen.head'_iff.mp cycle
    exact ih (Relation.TransGen.tail' rest first) (waits depth x y returned first)

end Returning

end Lemming.Shared.CallGraph
